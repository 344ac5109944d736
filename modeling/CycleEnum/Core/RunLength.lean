import Mathlib.Algebra.BigOperators.Group.List.Basic
import Mathlib.Algebra.Order.Ring.Int
import Mathlib.Data.List.TakeWhile
import Mathlib.Order.Basic
import Mathlib.Data.List.Basic

namespace CycleEnum

variable {α : Type}

-- The runs of equal values of a list, each with its length.
def runs [DecidableEq α] : List α → List (α × Nat)
  | [] => []
  | x :: xs =>
      (x, (xs.takeWhile (· = x)).length + 1) :: runs (xs.dropWhile (· = x))
termination_by xs => xs.length
decreasing_by
  have := (List.dropWhile_sublist (l := xs) (fun y => decide (y = x))).length_le
  simp only [List.length_cons]
  omega

def expand (groups : List (α × Nat)) : List α :=
  groups.flatMap fun group => List.replicate group.2 group.1

@[simp] theorem expand_nil : expand ([] : List (α × Nat)) = [] := rfl

@[simp] theorem expand_cons (group : α × Nat) (groups : List (α × Nat)) :
    expand (group :: groups) = List.replicate group.2 group.1 ++ expand groups := rfl

-- Counting in a list is adding up the runs that are counted.
theorem countP_expand (p : α → Bool) (groups : List (α × Nat)) :
    (expand groups).countP p = ((groups.filter (p ·.1)).map (·.2)).sum := by
  induction groups with
  | nil => rfl
  | cons group groups ih =>
      rw [expand_cons, List.countP_append, ih, List.countP_replicate]
      by_cases hp : p group.1 = true
      · simp [hp]
      · simp [hp]

section Runs

variable [DecidableEq α]

theorem runs_cons (x : α) (xs : List α) :
    runs (x :: xs) = (x, (xs.takeWhile (· = x)).length + 1) :: runs (xs.dropWhile (· = x)) := by
  rw [runs]

theorem takeWhile_eq_replicate (x : α) (xs : List α) :
    xs.takeWhile (· = x) = List.replicate (xs.takeWhile (· = x)).length x :=
  List.eq_replicate_iff.mpr ⟨rfl, fun y hy => by simpa using List.mem_takeWhile_imp hy⟩

theorem expand_runs (xs : List α) : expand (runs xs) = xs := by
  induction xs using runs.induct with
  | case1 => simp [runs]
  | case2 x xs ih =>
      rw [runs_cons, expand_cons, ih, List.replicate_succ, List.cons_append,
        ← takeWhile_eq_replicate, List.takeWhile_append_dropWhile]

theorem runs_pos (xs : List α) : ∀ run ∈ runs xs, 0 < run.2 := by
  induction xs using runs.induct with
  | case1 => simp [runs]
  | case2 x xs ih =>
      rw [runs_cons]
      exact List.forall_mem_cons.mpr ⟨Nat.succ_pos _, ih⟩

theorem mem_of_mem_runs {xs : List α} {run : α × Nat} (h : run ∈ runs xs) : run.1 ∈ xs := by
  induction xs using runs.induct with
  | case1 => simp [runs] at h
  | case2 x xs ih =>
      rw [runs_cons] at h
      rcases List.mem_cons.mp h with rfl | h
      · exact List.mem_cons_self
      · exact List.mem_cons_of_mem _ ((List.dropWhile_sublist _).subset (ih h))

end Runs

-- The runs of a list that does not decrease have increasing values.
theorem runs_pairwise [LinearOrder α] {xs : List α} (h : xs.Pairwise (· ≤ ·)) :
    (runs xs).Pairwise fun a b => a.1 < b.1 := by
  induction xs using runs.induct with
  | case1 => simp [runs]
  | case2 x xs ih =>
      obtain ⟨hfirst, hrest⟩ := List.pairwise_cons.mp h
      have hdrop : (xs.dropWhile (· = x)).Pairwise (· ≤ ·) :=
        hrest.sublist (List.dropWhile_sublist _)
      rw [runs_cons]
      refine List.pairwise_cons.mpr ⟨fun run hrun => ?_, ih hdrop⟩
      have hmem := mem_of_mem_runs hrun
      -- what stands first after the run of `x` is larger, and nothing after it is smaller
      cases hd : xs.dropWhile (· = x) with
      | nil =>
          rw [hd] at hmem
          cases hmem
      | cons y ys =>
          have hne : y ≠ x := by
            have := List.head_dropWhile_not (fun y => decide (y = x)) (l := xs) (by rw [hd]; simp)
            simpa [hd] using this
          have hle : x ≤ y := hfirst y ((List.dropWhile_sublist _).subset (hd ▸ List.mem_cons_self))
          rw [hd] at hmem hdrop
          rcases List.mem_cons.mp hmem with heq | hlater
          · rw [heq]
            exact lt_of_le_of_ne hle hne.symm
          · exact (lt_of_le_of_ne hle hne.symm).trans_le ((List.pairwise_cons.mp hdrop).1 _ hlater)

end CycleEnum
