import Mathlib.Algebra.BigOperators.Group.List.Basic
import Mathlib.Data.List.Perm.Basic
import Mathlib.Data.List.Perm.Subperm

namespace CycleEnum

variable {α κ : Type} [DecidableEq κ]

omit [DecidableEq κ] in
theorem subperm_map (f : α → κ) {part whole : List α} (h : part.Subperm whole) :
    (part.map f).Subperm (whole.map f) := by
  obtain ⟨middle, hperm, hsub⟩ := h
  exact ⟨middle.map f, hperm.map f, hsub.map f⟩

-- One group gets more in front, the others stay.
theorem perm_flatMap_group {keys : List κ} (hk : keys.Nodup) {key : κ} (hmem : key ∈ keys)
    {groups groups' : κ → List α} {more : List α}
    (hkey : (groups' key).Perm (more ++ groups key))
    (hrest : ∀ k, k ≠ key → groups' k = groups k) :
    (keys.flatMap groups').Perm (more ++ keys.flatMap groups) := by
  induction keys with
  | nil => simp at hmem
  | cons k keys ih =>
      obtain ⟨hnot, hk⟩ := List.nodup_cons.mp hk
      rw [List.flatMap_cons, List.flatMap_cons]
      by_cases heq : k = key
      · subst heq
        have hsame : keys.flatMap groups' = keys.flatMap groups := by
          refine List.flatMap_congr fun other ho => hrest other fun heq => ?_
          exact hnot (heq ▸ ho)
        rw [hsame, ← List.append_assoc]
        exact hkey.append_right _
      · have hrest' := ih hk ((List.mem_cons.mp hmem).resolve_left (Ne.symm heq))
        rw [hrest k heq]
        refine (hrest'.append_left (groups k)).trans ?_
        rw [← List.append_assoc, ← List.append_assoc]
        exact List.perm_append_comm.append_right _

-- Putting the groups of a list one after the other loses nothing.
theorem perm_flatMap_groups {keys : List κ} (hk : keys.Nodup) (key : α → κ) (l : List α)
    (hmem : ∀ a ∈ l, key a ∈ keys) :
    (keys.flatMap fun k => l.filter (key · = k)).Perm l := by
  induction l with
  | nil => simp
  | cons a l ih =>
      have hfilter : (keys.flatMap fun k => (a :: l).filter (key · = k)) =
          keys.flatMap fun k => if key a = k then a :: l.filter (key · = k)
            else l.filter (key · = k) := by
        refine List.flatMap_congr fun k _ => ?_
        by_cases heq : key a = k
        · simp [heq]
        · simp [heq]
      rw [hfilter]
      have hrest : (keys.flatMap fun k => if key a = k then a :: l.filter (key · = k)
          else l.filter (key · = k)).Perm ([a] ++ keys.flatMap fun k => l.filter (key · = k)) :=
        perm_flatMap_group hk (hmem a (by simp)) (by simp) fun k hne => if_neg (Ne.symm hne)
      exact hrest.trans ((ih fun b hb => hmem b (List.mem_cons_of_mem _ hb)).cons a)

-- A sum over the groups is a sum over the list.
theorem sum_groups {S : Type} [AddCommMonoid S] {keys : List κ} (hk : keys.Nodup) (key : α → κ)
    (l : List α) (hmem : ∀ a ∈ l, key a ∈ keys) (weight : α → S) :
    (keys.map fun k => ((l.filter (key · = k)).map weight).sum).sum = (l.map weight).sum := by
  have hperm := (perm_flatMap_groups hk key l hmem).map weight
  rw [← hperm.sum_eq, List.map_flatMap, List.flatMap_def, List.sum_flatten, List.map_map]
  rfl

end CycleEnum
