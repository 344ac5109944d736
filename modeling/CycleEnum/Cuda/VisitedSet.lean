import CycleEnum.Core.WordBits
import CycleEnum.Cuda.Kernel
import CycleEnum.Enumeration.Loops

namespace CycleEnum.Cuda

open Enumeration

-- `std::uint32_t`.
abbrev BitsetWord := BitVec 32

abbrev kBitsPerWord : Nat := 32

-- How a kernel tracks visited vertices.
inductive VisitedMode where
  | Sparse
  | Bitset
deriving DecidableEq, Repr

-- The arithmetic of `std::size_t`, in which taking one away is adding `2 ^ 64 - 1`.
def bitset_word_count (bit_count : Nat) : Nat :=
  wrap (wrap (bit_count + kBitsPerWord) + (2 ^ 64 - 1)) / kBitsPerWord

-- The words of the caller's array are read as `words[word]?` and written by this, and
-- there is no result where either leaves the array.
def write_word (words : List BitsetWord) (word : Nat) (value : BitsetWord) :
    Option (List BitsetWord) :=
  if word < words.length then some (words.set word value) else none

def bitset_set (words : List BitsetWord) (index : Nat) : Option (List BitsetWord) := do
  let word ← words[index / kBitsPerWord]?
  write_word words (index / kBitsPerWord) (word ||| 1#32 <<< (index % kBitsPerWord))

def bitset_clear (words : List BitsetWord) (index : Nat) : Option (List BitsetWord) := do
  let word ← words[index / kBitsPerWord]?
  write_word words (index / kBitsPerWord) (word &&& ~~~(1#32 <<< (index % kBitsPerWord)))

def bitset_test (words : List BitsetWord) (index : Nat) : Option Bool := do
  let word ← words[index / kBitsPerWord]?
  return (word >>> (index % kBitsPerWord)) &&& 1#32 != 0#32

-- The counter of the loop stays below the count of the words, so it does not wrap.
def bitset_clear_all (words : List BitsetWord) (bit_count : Nat) : Option (List BitsetWord) :=
  (List.range (bitset_word_count bit_count)).foldlM (fun words word => write_word words word 0#32)
    words

def choose_visited_mode (vertex_count max_bitset_words : Nat) : VisitedMode :=
  if bitset_word_count vertex_count ≤ max_bitset_words then .Bitset else .Sparse

section WordCount

-- The words have room for the bits exactly where the sum in their count does not wrap.
theorem bitset_word_count_room_iff {bit_count : Nat} (h : bit_count < 2 ^ 64) :
    bit_count ≤ kBitsPerWord * bitset_word_count bit_count ↔ bit_count + 31 < 2 ^ 64 := by
  unfold bitset_word_count wrap kBitsPerWord
  omega

example : [0, 1, 32, 33, 64].map bitset_word_count = [0, 1, 1, 2, 2] := by decide

theorem choose_visited_mode_bitset_iff (bit_count max_bitset_words : Nat) :
    choose_visited_mode bit_count max_bitset_words = .Bitset ↔
      bitset_word_count bit_count ≤ max_bitset_words := by
  rw [choose_visited_mode]
  split_ifs with hfits
  · simp [hfits]
  · simp [hfits]

end WordCount

section Primitives

variable {words : List BitsetWord} {index : Nat} {word : BitsetWord}

theorem bitset_set_eq (h : words[index / kBitsPerWord]? = some word) :
    ∃ words', bitset_set words index = some words' ∧ words'.length = words.length ∧
      bit_at words' = Function.update (bit_at words) index true := by
  have hin := (List.getElem?_eq_some_iff.mp h).1
  refine ⟨words.set (index / kBitsPerWord) (word ||| bit_mask 32 index), ?_, List.length_set,
    bit_at_set_or (by decide) h⟩
  rw [bitset_set, h]
  exact if_pos hin

theorem bitset_clear_eq (h : words[index / kBitsPerWord]? = some word) :
    ∃ words', bitset_clear words index = some words' ∧ words'.length = words.length ∧
      bit_at words' = Function.update (bit_at words) index false := by
  have hin := (List.getElem?_eq_some_iff.mp h).1
  refine ⟨words.set (index / kBitsPerWord) (word &&& ~~~bit_mask 32 index), ?_, List.length_set,
    bit_at_set_and_not (by decide) h⟩
  rw [bitset_clear, h]
  exact if_pos hin

theorem bitset_test_eq (h : words[index / kBitsPerWord]? = some word) :
    bitset_test words index = some (bit_at words index) := by
  rw [bitset_test, h, bit_at_eq h, ← shift_and_one_ne_zero (by decide)]
  rfl

theorem clear_words {count : Nat} (h : count ≤ words.length) :
    (List.range count).foldlM (fun words word => write_word words word 0#32) words =
      some (List.replicate count 0#32 ++ words.drop count) := by
  induction count with
  | zero => rfl
  | succ count ih =>
      have hin : count < words.length := h
      rw [List.range_succ, List.foldlM_append, ih (Nat.le_of_lt hin)]
      have hword : count < (List.replicate count 0#32 ++ words.drop count).length := by
        rw [List.length_append, List.length_replicate, List.length_drop]
        omega
      have hwrite : (List.replicate count 0#32 ++ words.drop count).set count 0#32 =
          List.replicate (count + 1) 0#32 ++ words.drop (count + 1) := by
        rw [List.set_append_right _ _ (by rw [List.length_replicate]), List.length_replicate,
          Nat.sub_self, List.drop_eq_getElem_cons hin, List.set_cons_zero, List.replicate_succ',
          List.append_assoc]
        rfl
      change (write_word _ count _).bind _ = _
      rw [write_word, if_pos hword, hwrite]
      rfl

theorem bitset_clear_all_eq {bit_count : Nat} (h : bitset_word_count bit_count ≤ words.length) :
    bitset_clear_all words bit_count =
      some (List.replicate (bitset_word_count bit_count) 0#32 ++
        words.drop (bitset_word_count bit_count)) :=
  clear_words h

end Primitives

-- The calls on the bits of `bit_count` vertices.
inductive BitsetOperation (bit_count : Nat) where
  | set (index : Fin bit_count)
  | clear (index : Fin bit_count)
  | clear_all
deriving DecidableEq, Repr

namespace BitsetOperation

variable {bit_count : Nat}

def run (words : List BitsetWord) : BitsetOperation bit_count → Option (List BitsetWord)
  | .set index => bitset_set words index
  | .clear index => bitset_clear words index
  | .clear_all => bitset_clear_all words bit_count

-- What the call is for, on a set of vertices.
def apply (members : Finset (Fin bit_count)) : BitsetOperation bit_count → Finset (Fin bit_count)
  | .set index => insert index members
  | .clear index => members.erase index
  | .clear_all => ∅

end BitsetOperation

section Refinement

variable {bit_count : Nat} {words : List BitsetWord} {members : Finset (Fin bit_count)}

-- The array has its words, and every test of a vertex reads one of them and tells a member.
structure TestsMembers (count : Nat) (words : List BitsetWord) (members : Finset (Fin bit_count)) :
    Prop where
  length_eq : words.length = count
  test_eq : ∀ index : Fin bit_count, bitset_test words index = some (decide (index ∈ members))

theorem tests_of_holds (h : HoldsSet words members) : TestsMembers words.length words members := by
  refine ⟨rfl, fun index => ?_⟩
  obtain ⟨word, hword⟩ := h.exists_word index
  rw [bitset_test_eq hword, h.bits]

-- A call ends, and does to the array what it is for on the set.
theorem run_holds (hfits : bitset_word_count bit_count ≤ words.length)
    (hroom : bit_count ≤ kBitsPerWord * bitset_word_count bit_count)
    (h : HoldsSet words members) (operation : BitsetOperation bit_count) :
    ∃ words', operation.run words = some words' ∧ words'.length = words.length ∧
      HoldsSet words' (operation.apply members) := by
  cases operation with
  | set index =>
      obtain ⟨word, hword⟩ := h.exists_word index
      obtain ⟨words', hrun, hlength, hbits⟩ := bitset_set_eq hword
      exact ⟨words', hrun, hlength, h.insert hlength hbits⟩
  | clear index =>
      obtain ⟨word, hword⟩ := h.exists_word index
      obtain ⟨words', hrun, hlength, hbits⟩ := bitset_clear_eq hword
      exact ⟨words', hrun, hlength, h.erase hlength hbits⟩
  | clear_all =>
      refine ⟨_, bitset_clear_all_eq hfits, ?_, HoldsSet.empty hroom _⟩
      rw [List.length_append, List.length_replicate, List.length_drop]
      omega

theorem runs_test_members {count : Nat} (hbits : bit_count + 31 < 2 ^ 64)
    (hfits : bitset_word_count bit_count ≤ count) (operations : List (BitsetOperation bit_count)) :
    ∃ states, operations.scanlM BitsetOperation.run (List.replicate count 0#32) = some states ∧
      List.Forall₂ (TestsMembers count) states (operations.scanl BitsetOperation.apply ∅) := by
  have hroom : bit_count ≤ kBitsPerWord * bitset_word_count bit_count :=
    (bitset_word_count_room_iff (by omega)).mpr hbits
  have hstart : HoldsSet (List.replicate count 0#32) (∅ : Finset (Fin bit_count)) := by
    have := HoldsSet.empty (n := bit_count) (hroom.trans (Nat.mul_le_mul_left _ hfits)) []
    rwa [List.append_nil] at this
  have hstep : ∀ (words : List BitsetWord) (members : Finset (Fin bit_count))
      (operation : BitsetOperation bit_count), words.length = count ∧ HoldsSet words members →
      ∃ words', operation.run words = some words' ∧
        (words'.length = count ∧ HoldsSet words' (operation.apply members)) := by
    rintro words members operation ⟨rfl, h⟩
    obtain ⟨words', hrun, hlength, h'⟩ := run_holds hfits hroom h operation
    exact ⟨words', hrun, hlength, h'⟩
  obtain ⟨states, hrun, hstates⟩ :=
    scanlM_simulates operations hstep ⟨List.length_replicate, hstart⟩
  refine ⟨states, hrun, hstates.imp fun words members ⟨hlength, h⟩ => ?_⟩
  exact hlength ▸ tests_of_holds h

-- Where the bit set is chosen, an array of the largest acceptable size will do.
theorem chosen_bitset_tests_members {max_bitset_words : Nat} (hbits : bit_count + 31 < 2 ^ 64)
    (hmode : choose_visited_mode bit_count max_bitset_words = .Bitset)
    (operations : List (BitsetOperation bit_count)) :
    ∃ states, operations.scanlM BitsetOperation.run (List.replicate max_bitset_words 0#32) =
        some states ∧
      List.Forall₂ (TestsMembers max_bitset_words) states
        (operations.scanl BitsetOperation.apply ∅) :=
  runs_test_members hbits ((choose_visited_mode_bitset_iff _ _).mp hmode) operations

-- The bit set is a set: every call stays in the array, and after each of them the tests tell
-- the members.
theorem bitset_refines_set (hbits : bit_count + 31 < 2 ^ 64)
    (operations : List (BitsetOperation bit_count)) :
    ∃ states, operations.scanlM BitsetOperation.run
        (List.replicate (bitset_word_count bit_count) 0#32) = some states ∧
      List.Forall₂ (TestsMembers (bitset_word_count bit_count)) states
        (operations.scanl BitsetOperation.apply ∅) :=
  runs_test_members hbits (Nat.le_refl _) operations

-- Bits on both sides of a word boundary, then one cleared, then all.
def boundary_operations : List (BitsetOperation 70) :=
  [.set 0, .set 31, .set 32, .set 63, .set 69, .clear 32, .clear_all]

theorem bitset_refines_set_boundary : ∃ states,
    boundary_operations.scanlM BitsetOperation.run (List.replicate (bitset_word_count 70) 0#32) =
        some states ∧
      List.Forall₂ (TestsMembers (bitset_word_count 70)) states
        (boundary_operations.scanl BitsetOperation.apply ∅) :=
  bitset_refines_set (by decide) boundary_operations

end Refinement

end CycleEnum.Cuda
