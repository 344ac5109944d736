import Mathlib.Data.Finset.Basic

namespace CycleEnum

variable {w : Nat}

-- The bits of an array of words in a row, which are off behind its end.
def bit_at (words : List (BitVec w)) (index : Nat) : Bool :=
  (words.getD (index / w) 0).getLsbD (index % w)

-- The bit of `index` in its word.
def bit_mask (w index : Nat) : BitVec w := 1#w <<< (index % w)

theorem getLsbD_bit_mask (hw : 0 < w) (index place : Nat) :
    (bit_mask w index).getLsbD place = decide (index % w = place) := by
  rw [bit_mask, ← BitVec.twoPow_eq, BitVec.getLsbD_twoPow, decide_eq_true (Nat.mod_lt index hw),
    Bool.true_and]

theorem shift_and_one_ne_zero (hw : 0 < w) (word : BitVec w) (place : Nat) :
    ((word >>> place) &&& 1#w != 0#w) = word.getLsbD place := by
  have hbit : (word >>> place).getLsbD 0 = word.getLsbD place := by
    rw [BitVec.getLsbD_ushiftRight, Nat.add_zero]
  rw [BitVec.and_one_eq_setWidth_ofBool_getLsbD, hbit]
  cases word.getLsbD place with
  | false => simp
  | true =>
      rw [bne_iff_ne]
      intro hzero
      have hone := congrArg (fun x : BitVec w => x.getLsbD 0) hzero
      simp [hw] at hone

section Words

variable {words : List (BitVec w)} {word word' : BitVec w} {index : Nat}

theorem bit_at_eq (h : words[index / w]? = some word) :
    bit_at words index = word.getLsbD (index % w) := by
  rw [bit_at, List.getD_eq_getElem?_getD, h, Option.getD_some]

theorem bit_at_zeros_append {count : Nat} (rest : List (BitVec w)) (h : index / w < count) :
    bit_at (List.replicate count (0#w) ++ rest) index = false := by
  have hzero : (List.replicate count (0#w) ++ rest)[index / w]? = some (0#w) := by
    rw [List.getElem?_append_left (by rwa [List.length_replicate]), List.getElem?_replicate, if_pos h]
  rw [bit_at_eq hzero, BitVec.getLsbD_zero]

-- A write of one bit to its word is a write to the array at that index alone: two
-- indices with the same word and the same place in it are equal.
theorem bit_at_write (hw : 0 < w) (value : Bool) (h : words[index / w]? = some word)
    (hword : ∀ place < w, word'.getLsbD place =
      if place = index % w then value else word.getLsbD place) :
    bit_at (words.set (index / w) word') = Function.update (bit_at words) index value := by
  have hin := (List.getElem?_eq_some_iff.mp h).1
  funext other
  rw [Function.update_apply, bit_at, List.getD_eq_getElem?_getD, List.getElem?_set]
  by_cases hsame : index / w = other / w
  · rw [if_pos hsame, if_pos hin, Option.getD_some, hword _ (Nat.mod_lt other hw)]
    by_cases hplace : other % w = index % w
    · rw [if_pos hplace, if_pos (Nat.ext_div_mod hsame.symm hplace)]
    · rw [if_neg hplace, if_neg fun heq => hplace (by rw [heq]), bit_at_eq (hsame ▸ h)]
  · rw [if_neg hsame, if_neg fun heq => hsame (by rw [heq]), bit_at, List.getD_eq_getElem?_getD]

theorem bit_at_set_or (hw : 0 < w) (h : words[index / w]? = some word) :
    bit_at (words.set (index / w) (word ||| bit_mask w index)) =
      Function.update (bit_at words) index true := by
  refine bit_at_write hw true h fun place _ => ?_
  rw [BitVec.getLsbD_or, getLsbD_bit_mask hw]
  split_ifs with hplace
  · simp [hplace]
  · simp [Ne.symm hplace]

theorem bit_at_set_and_not (hw : 0 < w) (h : words[index / w]? = some word) :
    bit_at (words.set (index / w) (word &&& ~~~bit_mask w index)) =
      Function.update (bit_at words) index false := by
  refine bit_at_write hw false h fun place hplace => ?_
  rw [BitVec.getLsbD_and, BitVec.getLsbD_not, getLsbD_bit_mask hw]
  split_ifs with hplace'
  · simp [hplace']
  · simp [hplace, Ne.symm hplace']

end Words

-- An array of words with room for `n` bits, which are those of a set of numbers below `n`.
structure HoldsSet {n : Nat} (words : List (BitVec w)) (members : Finset (Fin n)) : Prop where
  room : n ≤ w * words.length
  bits : ∀ index : Fin n, bit_at words index = decide (index ∈ members)

namespace HoldsSet

variable {n : Nat} {words words' : List (BitVec w)} {members : Finset (Fin n)} {index : Fin n}

-- The word of an index is in the array.
theorem exists_word (h : HoldsSet words members) (index : Fin n) :
    ∃ word, words[(index : Nat) / w]? = some word := by
  have hin : (index : Nat) / w < words.length :=
    Nat.div_lt_of_lt_mul (lt_of_lt_of_le index.isLt h.room)
  exact ⟨_, List.getElem?_eq_getElem hin⟩

-- A write at one index leaves the other members as they are.
theorem update {members' : Finset (Fin n)} {value : Bool} (h : HoldsSet words members)
    (hlength : words'.length = words.length)
    (hbits : bit_at words' = Function.update (bit_at words) index value)
    (hindex : decide (index ∈ members') = value)
    (hrest : ∀ other, other ≠ index → (other ∈ members' ↔ other ∈ members)) :
    HoldsSet words' members' := by
  refine ⟨hlength ▸ h.room, fun other => ?_⟩
  rw [hbits, Function.update_apply, h.bits]
  by_cases heq : other = index
  · rw [heq, if_pos rfl, hindex]
  · rw [if_neg fun hval => heq (Fin.ext hval), decide_eq_decide.mpr (hrest other heq)]

theorem insert (h : HoldsSet words members) (hlength : words'.length = words.length)
    (hbits : bit_at words' = Function.update (bit_at words) index true) :
    HoldsSet words' (insert index members) :=
  h.update hlength hbits (by simp) fun other hne => by simp [hne]

theorem erase (h : HoldsSet words members) (hlength : words'.length = words.length)
    (hbits : bit_at words' = Function.update (bit_at words) index false) :
    HoldsSet words' (members.erase index) :=
  h.update hlength hbits (by simp) fun other hne => by simp [hne]

theorem empty {count : Nat} (hroom : n ≤ w * count) (rest : List (BitVec w)) :
    HoldsSet (List.replicate count (0#w) ++ rest) (∅ : Finset (Fin n)) := by
  refine ⟨?_, fun index => ?_⟩
  · rw [List.length_append, List.length_replicate, Nat.mul_add]
    omega
  · have hin : (index : Nat) / w < count :=
      Nat.div_lt_of_lt_mul (lt_of_lt_of_le index.isLt hroom)
    rw [bit_at_zeros_append rest hin]
    simp

end HoldsSet

end CycleEnum
