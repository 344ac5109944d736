import Mathlib.Data.Nat.Basic
import Mathlib.Tactic.Common

namespace CycleEnum

-- Binary search for the end of the leading part that satisfies `before`.
def partition_point (before : Nat → Bool) (first last : Nat) : Nat :=
  if first < last then
    let mid := first + (last - first) / 2
    if before mid then partition_point before (mid + 1) last else partition_point before first mid
  else first
termination_by last - first

section Spec

variable {before : Nat → Bool}

theorem partition_point_mem {first last : Nat} (h : first ≤ last) :
    first ≤ partition_point before first last ∧ partition_point before first last ≤ last := by
  induction first, last using partition_point.induct before with
  | case1 first last hlt mid hmid ih =>
      have hpoint : partition_point before first last = partition_point before (mid + 1) last := by
        rw [partition_point, if_pos hlt, if_pos hmid]
      rw [hpoint]
      have := ih (by omega)
      omega
  | case2 first last hlt mid hmid ih =>
      have hpoint : partition_point before first last = partition_point before first mid := by
        rw [partition_point, if_pos hlt, if_neg hmid]
      rw [hpoint]
      have := ih (by omega)
      omega
  | case3 first last hlt =>
      rw [partition_point, if_neg hlt]
      omega

-- Where the condition is closed downwards, it holds exactly before the point.
theorem lt_partition_point_iff {first last : Nat}
    (hdown : ∀ i j, first ≤ i → i ≤ j → j < last → before j = true → before i = true) {offset : Nat}
    (hf : first ≤ offset) (hl : offset < last) :
    offset < partition_point before first last ↔ before offset = true := by
  induction first, last using partition_point.induct before with
  | case1 first last hlt mid hmid ih =>
      have hpoint : partition_point before first last = partition_point before (mid + 1) last := by
        rw [partition_point, if_pos hlt, if_pos hmid]
      rw [hpoint]
      by_cases ho : mid + 1 ≤ offset
      · exact ih (fun i j hi hij hj => hdown i j (by omega) hij hj) ho hl
      · have hmem : mid + 1 ≤ partition_point before (mid + 1) last :=
          (partition_point_mem (by omega)).1
        have hkeep := hdown offset mid hf (by omega) (by omega) hmid
        rw [iff_true_right hkeep]
        omega
  | case2 first last hlt mid hmid ih =>
      have hpoint : partition_point before first last = partition_point before first mid := by
        rw [partition_point, if_pos hlt, if_neg hmid]
      rw [hpoint]
      by_cases ho : offset < mid
      · exact ih (fun i j hi hij hj => hdown i j hi hij (by omega)) hf ho
      · have hmem : partition_point before first mid ≤ mid := (partition_point_mem (by omega)).2
        have hdrop : before offset ≠ true := fun hk =>
          hmid (hdown mid offset (by omega) (by omega) hl hk)
        rw [iff_false_right hdrop]
        omega
  | case3 first last hlt => omega

end Spec

-- A point of a range is known by what lies before it.
theorem point_eq {first last point point' : Nat} (h : first ≤ point ∧ point ≤ last)
    (h' : first ≤ point' ∧ point' ≤ last)
    (hsame : ∀ offset, first ≤ offset → offset < last → (offset < point ↔ offset < point')) :
    point = point' := by
  apply Nat.le_antisymm
  · by_contra hgt
    have := hsame point' h'.1
    omega
  · by_contra hgt
    have := hsame point h.1
    omega

end CycleEnum
