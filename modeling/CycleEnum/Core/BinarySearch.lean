import CycleEnum.Core.PartitionPoint
import Mathlib.Order.Basic
import Mathlib.Data.List.Sort

namespace CycleEnum

variable {α β : Type}

-- `std::binary_search` between two places of an array: the lower bound of the key, and
-- a look at what stands there.
def binary_search (lt : α → α → Bool) (xs : List α) (first last : Nat) (key : α) : Bool :=
  let point := partition_point (fun i => xs[i]?.any (lt · key)) first last
  decide (point < last) && xs[point]?.any (!lt key ·)

theorem mem_extract_iff {xs : List α} {first last : Nat} {x : α} :
    x ∈ xs.extract first last ↔ ∃ i, first ≤ i ∧ i < last ∧ xs[i]? = some x := by
  rw [List.extract_eq_take_drop, List.mem_iff_getElem?]
  constructor
  · rintro ⟨k, hk⟩
    rw [List.getElem?_take] at hk
    split_ifs at hk with hlt
    rw [List.getElem?_drop] at hk
    exact ⟨first + k, by omega, by omega, hk⟩
  · rintro ⟨i, hf, hl, hi⟩
    refine ⟨i - first, ?_⟩
    rw [List.getElem?_take, if_pos (by omega), List.getElem?_drop,
      show first + (i - first) = i by omega, hi]

theorem extract_pairwise_iff {R : α → α → Prop} {xs : List α} {first last : Nat}
    (hl : last ≤ xs.length) :
    (xs.extract first last).Pairwise R ↔ ∀ (i j : Nat) x y, first ≤ i → i < j → j < last →
      xs[i]? = some x → xs[j]? = some y → R x y := by
  rw [List.extract_eq_take_drop, List.pairwise_iff_getElem]
  constructor
  · intro h i j x y hf hij hj hx hy
    obtain ⟨hi, rfl⟩ := List.getElem?_eq_some_iff.mp hx
    obtain ⟨hj', rfl⟩ := List.getElem?_eq_some_iff.mp hy
    have := h (i - first) (j - first) (by simp; omega) (by simp; omega) (by omega)
    simpa [show first + (i - first) = i by omega, show first + (j - first) = j by omega] using this
  · intro h i j hi hj hij
    simp only [List.length_take, List.length_drop] at hi hj
    refine h (first + i) (first + j) _ _ (by omega) (by omega) (by omega) ?_ ?_ <;>
      simp

section Sorted

variable [LinearOrder β] {rank : α → β} {lt : α → α → Bool} {xs : List α} {first last : Nat}

-- In a sorted part of an array the search finds what is there.
theorem binary_search_iff (hrank : Function.Injective rank)
    (hlt : ∀ a b, lt a b = true ↔ rank a < rank b) (hfirst : first ≤ last)
    (hl : last ≤ xs.length)
    (hsorted : (xs.extract first last).Pairwise fun a b => rank a ≤ rank b) (key : α) :
    binary_search lt xs first last key = true ↔ key ∈ xs.extract first last := by
  have hbefore : ∀ (i : Nat) x, xs[i]? = some x →
      (xs[i]?.any (lt · key) = true ↔ rank x < rank key) := by
    intro i x hx
    rw [hx, Option.any_some, hlt]
  have hmono := (extract_pairwise_iff hl).mp hsorted
  have hdown : ∀ i j : Nat, first ≤ i → i ≤ j → j < last →
      (xs[j]?.any (lt · key)) = true → (xs[i]?.any (lt · key)) = true := by
    intro i j hf hij hj hkeep
    rcases Nat.eq_or_lt_of_le hij with rfl | hij
    · exact hkeep
    obtain ⟨x, hx⟩ : ∃ x, xs[i]? = some x := ⟨_, List.getElem?_eq_getElem (by omega)⟩
    obtain ⟨y, hy⟩ : ∃ y, xs[j]? = some y := ⟨_, List.getElem?_eq_getElem (by omega)⟩
    rw [hbefore j y hy] at hkeep
    rw [hbefore i x hx]
    exact lt_of_le_of_lt (hmono i j x y hf hij hj hx hy) hkeep
  have hpoint := @partition_point_mem (fun i => xs[i]?.any (lt · key)) first last hfirst
  have hiff := fun offset => @lt_partition_point_iff _ first last hdown offset
  rw [binary_search, Bool.and_eq_true, decide_eq_true_eq, mem_extract_iff]
  constructor
  · rintro ⟨hin, hlook⟩
    obtain ⟨x, hx⟩ : ∃ x, xs[partition_point (fun i => xs[i]?.any (lt · key)) first last]? = some x :=
      ⟨_, List.getElem?_eq_getElem (by omega)⟩
    have hge : ¬rank x < rank key := fun hless =>
      Nat.lt_irrefl _ ((hiff _ hpoint.1 hin).mpr ((hbefore _ x hx).mpr hless))
    have hle : ¬rank key < rank x := fun hless => by
      rw [hx, Option.any_some, (hlt key x).mpr hless] at hlook
      cases hlook
    have heq : x = key := hrank (le_antisymm (not_lt.mp hle) (not_lt.mp hge))
    exact ⟨_, hpoint.1, hin, heq ▸ hx⟩
  · rintro ⟨i, hf, hi, hx⟩
    have hat : ¬i < partition_point (fun i => xs[i]?.any (lt · key)) first last := fun hless =>
      lt_irrefl _ ((hbefore i key hx).mp ((hiff i hf hi).mp hless))
    refine ⟨by omega, ?_⟩
    obtain ⟨x, hx'⟩ : ∃ x, xs[partition_point (fun i => xs[i]?.any (lt · key)) first last]? = some x :=
      ⟨_, List.getElem?_eq_getElem (by omega)⟩
    have hle : rank x ≤ rank key := by
      rcases Nat.eq_or_lt_of_le (Nat.le_of_not_lt hat) with heq | hless
      · rw [heq, hx] at hx'
        exact le_of_eq (congrArg rank (Option.some.inj hx').symm)
      · exact hmono _ i x key hpoint.1 hless hi hx' hx
    rw [hx', Option.any_some, Bool.not_eq_true', ← Bool.not_eq_true, hlt]
    exact not_lt.mpr hle

end Sorted

end CycleEnum
