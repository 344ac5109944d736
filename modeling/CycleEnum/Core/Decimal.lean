import CycleEnum.Core.Stream

namespace CycleEnum

-- A number printed in base ten, as `<<` and Python's `str` print it.
theorem is_digit_eq_isDigit (c : Char) : is_digit c = c.isDigit := by
  simp only [is_digit, Char.isDigit, Char.toNat, UInt32.le_iff_toNat_le]
  rfl

theorem natural_eq_ofDigitChars {digits : List Char} (hne : digits ≠ [])
    (hall : ∀ c ∈ digits, is_digit c = true) :
    natural digits = some ((Nat.ofDigitChars 10 digits 0 : Nat) : Int) := by
  have hfold : ∀ (digits : List Char) (value : Nat),
      digits.foldl (fun (value : Int) c => 10 * value + (c.toNat - 48 : Nat)) (value : Int) =
        (Nat.ofDigitChars 10 digits value : Nat) := by
    intro digits
    induction digits with
    | nil => exact fun _ => rfl
    | cons c digits ih =>
        intro value
        rw [List.foldl_cons, Nat.ofDigitChars_cons, ← ih]
        rfl
  rw [natural, if_pos ⟨hne, List.all_eq_true.mpr hall⟩]
  exact congrArg some (hfold digits 0)

theorem is_digit_of_mem_toDigits {n : Nat} {c : Char} (h : c ∈ Nat.toDigits 10 n) :
    is_digit c = true := by
  rw [is_digit_eq_isDigit]
  exact Nat.isDigit_of_mem_toDigits (by decide) (by decide) h

theorem natural_repr (n : Nat) : natural n.repr.toList = some (n : Int) := by
  rw [Nat.toList_repr, natural_eq_ofDigitChars Nat.toDigits_ne_nil fun c => is_digit_of_mem_toDigits,
    Nat.ofDigitChars_ten_toDigits]

theorem is_digit_of_mem_repr {n : Nat} {c : Char} (h : c ∈ n.repr.toList) : is_digit c = true := by
  rw [Nat.toList_repr] at h
  exact is_digit_of_mem_toDigits h

theorem repr_toList_ne_nil (n : Nat) : n.repr.toList ≠ [] := by
  rw [Nat.toList_repr]
  exact Nat.toDigits_ne_nil

-- Different numbers are printed differently.
theorem repr_injective {m n : Nat} (h : m.repr = n.repr) : m = n := by
  have hm := natural_repr m
  rw [h, natural_repr] at hm
  exact (Int.ofNat.inj (Option.some.inj hm)).symm

-- A negative number has a minus sign in front.
theorem int_repr_cases (value : Int) :
    (∃ n : Nat, value = n ∧ value.repr = n.repr) ∨
      ∃ n : Nat, value = -(n : Int) ∧ value.repr.toList = '-' :: n.repr.toList := by
  cases value with
  | ofNat n => exact Or.inl ⟨n, rfl, rfl⟩
  | negSucc n =>
      refine Or.inr ⟨n + 1, rfl, ?_⟩
      rw [Int.repr]
      simp

end CycleEnum
