import Mathlib.Data.List.Perm.Subperm
import Mathlib.Data.List.Nodup
import Mathlib.Logic.Relation
import Mathlib.Logic.Function.Basic

namespace CycleEnum.Enumeration

variable {V : Type} [DecidableEq V]

-- A vertex that is found for the first time is marked and waits in the queue.
def find (state : (V → Bool) × List V) (next : V) : (V → Bool) × List V :=
  if state.1 next then state else (Function.update state.1 next true, state.2 ++ [next])

-- The marks when the queue is empty.
def breadth_first (succ : V → List V) : Nat → (V → Bool) × List V → Option (V → Bool)
  | _, (marks, []) => some marks
  | 0, (_, _ :: _) => none
  | fuel + 1, (marks, current :: queue) =>
      breadth_first succ fuel ((succ current).foldl find (marks, queue))

def Reachable (succ : V → List V) : V → V → Prop := Relation.ReflTransGen fun v next => next ∈ succ v

-- The marked vertices are those that have left the queue and those in it.
structure Marked (past : List V) (state : (V → Bool) × List V) : Prop where
  nodup : (past ++ state.2).Nodup
  marks : ∀ v, state.1 v = true ↔ v ∈ past ++ state.2

section Find

variable {past : List V} {state : (V → Bool) × List V}

theorem Marked.find (h : Marked past state) (next : V) :
    Marked past (Enumeration.find state next) ∧
      ∀ v, v ∈ past ++ (Enumeration.find state next).2 ↔ v ∈ past ++ state.2 ∨ v = next := by
  unfold Enumeration.find
  split_ifs with hm
  · refine ⟨h, fun v => ⟨Or.inl, fun hv => hv.elim id fun he => ?_⟩⟩
    rw [he]
    exact (h.marks next).mp hm
  · have hnew : next ∉ past ++ state.2 := fun hin => hm ((h.marks next).mpr hin)
    have hmem : ∀ v, v ∈ past ++ (state.2 ++ [next]) ↔ v ∈ past ++ state.2 ∨ v = next := by
      intro v
      simp only [List.mem_append, List.mem_singleton, or_assoc]
    refine ⟨⟨?_, fun v => ?_⟩, hmem⟩
    · rw [← List.append_assoc]
      exact List.Nodup.append h.nodup (List.nodup_singleton _) (by simpa using hnew)
    · dsimp only
      rw [hmem, Function.update_apply]
      by_cases hv : v = next
      · simp [hv]
      · simp only [hv, or_false]
        exact h.marks v

theorem Marked.foldl_find (h : Marked past state) (nexts : List V) :
    Marked past (nexts.foldl Enumeration.find state) ∧
      ∀ v, v ∈ past ++ (nexts.foldl Enumeration.find state).2 ↔ v ∈ past ++ state.2 ∨ v ∈ nexts := by
  induction nexts generalizing state with
  | nil => exact ⟨h, by simp⟩
  | cons next nexts ih =>
      obtain ⟨hone, hmem⟩ := h.find next
      obtain ⟨hall, hmem'⟩ := ih hone
      refine ⟨hall, fun v => ?_⟩
      rw [List.foldl_cons, hmem', hmem, List.mem_cons, or_assoc]

end Find

variable {succ : V → List V} {verts : List V}

omit [DecidableEq V] in
-- With an empty queue the marks are the reachable vertices.
theorem Marked.finished {past : List V} {marks : V → Bool} (h : Marked past (marks, [])) {start : V}
    (hstart : start ∈ past) (hin : ∀ v ∈ past, Reachable succ start v)
    (hpast : ∀ v ∈ past, ∀ next ∈ succ v, next ∈ past) (v : V) :
    marks v = true ↔ Reachable succ start v := by
  have hmarks : marks v = true ↔ v ∈ past := by simpa using h.marks v
  rw [hmarks]
  clear hmarks
  refine ⟨hin v, fun hv => ?_⟩
  induction hv with
  | refl => exact hstart
  | tail _ hnext ih => exact hpast _ ih _ hnext

theorem breadth_first_marked (hverts : ∀ v, ∀ next ∈ succ v, next ∈ verts) {start : V} {fuel : Nat}
    {past : List V} {state : (V → Bool) × List V} (h : Marked past state)
    (hstart : start ∈ past ++ state.2) (hin : ∀ v ∈ past ++ state.2, v ∈ verts ∧ Reachable succ start v)
    (hpast : ∀ v ∈ past, ∀ next ∈ succ v, next ∈ past ++ state.2)
    (hfuel : verts.length ≤ fuel + past.length) :
    ∃ marks, breadth_first succ fuel state = some marks ∧
      ∀ v, marks v = true ↔ Reachable succ start v := by
  induction fuel generalizing past state with
  | zero =>
      obtain ⟨marks, queue⟩ := state
      have hlen := (h.nodup.subperm fun v hv => (hin v hv).1).length_le
      rw [List.length_append] at hlen
      obtain rfl : queue = [] := List.length_eq_zero_iff.mp (by dsimp only at hlen; omega)
      dsimp only at hstart hin hpast
      rw [List.append_nil] at hstart hin hpast
      exact ⟨marks, rfl, h.finished hstart (fun v hv => (hin v hv).2) hpast⟩
  | succ fuel ih =>
      obtain ⟨marks, queue⟩ := state
      cases queue with
      | nil =>
          dsimp only at hstart hin hpast
          rw [List.append_nil] at hstart hin hpast
          exact ⟨marks, rfl, h.finished hstart (fun v hv => (hin v hv).2) hpast⟩
      | cons current queue =>
          have hsplit : past ++ current :: queue = (past ++ [current]) ++ queue := by simp
          have hmarked : Marked (past ++ [current]) (marks, queue) :=
            ⟨hsplit ▸ h.nodup, fun v => (h.marks v).trans (by rw [hsplit])⟩
          obtain ⟨hnew, hmem⟩ := hmarked.foldl_find (succ current)
          dsimp only at hstart hin hpast
          rw [hsplit] at hstart hin hpast
          refine ih hnew ((hmem _).mpr (Or.inl hstart)) (fun v hv => ?_) (fun v hv next hnext => ?_) ?_
          · rcases (hmem v).mp hv with hv | hv
            · exact hin v hv
            · have hcurrent := (hin current (by simp)).2
              exact ⟨hverts current v hv, hcurrent.tail hv⟩
          · rcases List.mem_append.mp hv with hv | hv
            · exact (hmem _).mpr (Or.inl (hpast v hv next hnext))
            · rw [List.mem_singleton.mp hv] at hnext
              exact (hmem _).mpr (Or.inr hnext)
          · rw [List.length_append, List.length_singleton]
            omega

-- The search marks the vertices that can be reached, and no others.
theorem breadth_first_exact (hverts : ∀ v, ∀ next ∈ succ v, next ∈ verts) {start : V}
    (hstart : start ∈ verts) {fuel : Nat} (hfuel : verts.length ≤ fuel) :
    ∃ marks, breadth_first succ fuel (Function.update (fun _ => false) start true, [start]) =
        some marks ∧ ∀ v, marks v = true ↔ Reachable succ start v := by
  have hmarked : Marked [] (Function.update (fun _ => false) start true, [start]) := by
    refine ⟨List.nodup_singleton _, fun v => ?_⟩
    by_cases hv : v = start
    · simp [hv]
    · simp [hv]
  refine breadth_first_marked hverts hmarked (by simp) (fun v hv => ?_) (by simp) hfuel
  · obtain rfl : v = start := by simpa using hv
    exact ⟨hstart, .refl⟩

end CycleEnum.Enumeration
