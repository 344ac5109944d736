import CycleEnum.Core.Decimal
import Mathlib.Data.List.DropRight

namespace CycleEnum.Benchmarks

-- The methods of `str` that the scripts use, on texts of ASCII characters.
def is_blank (c : Char) : Bool := c = ' ' || 9 ≤ c.toNat && c.toNat ≤ 13 || 28 ≤ c.toNat && c.toNat ≤ 31

def strip (text : List Char) : List Char := (text.dropWhile is_blank).rdropWhile is_blank

def is_line_end (c : Char) : Bool := 10 ≤ c.toNat && c.toNat ≤ 13 || 28 ≤ c.toNat && c.toNat ≤ 30

def splitlines : List Char → List (List Char)
  | [] => []
  | '\r' :: '\n' :: text => [] :: splitlines text
  | c :: text =>
      if is_line_end c then [] :: splitlines text
      else match splitlines text with
        | [] => [[c]]
        | line :: lines => (c :: line) :: lines

def lower (text : List Char) : List Char := text.map Char.toLower

def isdigit (text : List Char) : Bool := text ≠ [] && text.all is_digit

-- `int`: single underscores may stand between digits.
def int_of (text : List Char) : Option Int :=
  let digits_value (digits : List Char) : Option Int :=
    if (digits.splitOn '_').all isdigit then natural (digits.filter (· ≠ '_')) else none
  match strip text with
  | [] => none
  | c :: digits =>
      if c = '-' then (digits_value digits).map (- ·)
      else if c = '+' then digits_value digits
      else digits_value (c :: digits)

-- A text without blanks and commas.
def Word (text : List Char) : Prop := text ≠ [] ∧ ∀ c ∈ text, is_blank c = false ∧ c ≠ ','

section Words

variable {text first second : List Char}

theorem is_line_end_of_blank {c : Char} (h : is_blank c = false) : is_line_end c = false := by
  simp only [is_blank, is_line_end, Bool.or_eq_false_iff, Bool.and_eq_false_iff, decide_eq_false_iff_not] at h ⊢
  omega

theorem total_word : Word "Total".toList := by
  have hletters : "Total".toList.all (fun c => !is_blank c && c ≠ ',') = true := by decide
  exact ⟨by decide, fun c hc => by simpa using List.all_eq_true.mp hletters c hc⟩

theorem word_repr (n : Nat) : Word n.repr.toList := by
  refine ⟨repr_toList_ne_nil n, fun c hc => ?_⟩
  have hdigit := is_digit_of_mem_repr hc
  simp only [is_digit, Bool.and_eq_true, decide_eq_true_eq] at hdigit
  refine ⟨?_, ?_⟩
  · have hspace : c ≠ ' ' := by
      rintro rfl
      exact absurd hdigit.1 (by decide)
    simp only [is_blank, hspace, decide_false, Bool.false_or, Bool.or_eq_false_iff,
      Bool.and_eq_false_iff, decide_eq_false_iff_not]
    omega
  · rintro rfl
    exact absurd hdigit.1 (by decide)

-- A text that begins and ends with no blank is stripped of nothing.
theorem strip_eq {c d : Char} {middle : List Char} (hc : is_blank c = false) (hd : is_blank d = false)
    (h : text = c :: middle ∧ ∃ front, text = front ++ [d]) : strip text = text := by
  obtain ⟨hfront, front, hback⟩ := h
  rw [strip, hfront, List.dropWhile_cons_of_neg (by simp [hc]), ← hfront, hback,
    List.rdropWhile_concat_neg _ _ _ (by simp [hd])]

theorem Word.head (h : Word text) : ∃ c middle, is_blank c = false ∧ text = c :: middle := by
  cases text with
  | nil => exact absurd rfl h.1
  | cons c middle => exact ⟨c, middle, (h.2 c List.mem_cons_self).1, rfl⟩

theorem Word.last (h : Word text) : ∃ front d, is_blank d = false ∧ text = front ++ [d] := by
  have hback := List.dropLast_append_getLast h.1
  exact ⟨text.dropLast, text.getLast h.1, (h.2 _ (List.getLast_mem h.1)).1, hback.symm⟩

theorem Word.strip_eq (h : Word text) : strip text = text := by
  obtain ⟨c, middle, hc, hfront⟩ := h.head
  obtain ⟨front, d, hd, hback⟩ := h.last
  exact Benchmarks.strip_eq hc hd ⟨hfront, front, hback⟩

theorem Word.strip_blank (h : Word text) : strip (' ' :: text) = text := by
  rw [strip, List.dropWhile_cons_of_pos (by decide)]
  exact h.strip_eq

theorem Word.not_mem_comma (h : Word text) : ',' ∉ text := fun hmem => (h.2 ',' hmem).2 rfl

theorem int_of_repr (n : Nat) : int_of n.repr.toList = some (n : Int) := by
  have hunderscore : '_' ∉ n.repr.toList := fun h => absurd (is_digit_of_mem_repr h) (by decide)
  have hall : ((n.repr.toList).splitOn '_').all isdigit = true := by
    rw [List.splitOn_eq_singleton hunderscore, List.all_cons, List.all_nil, Bool.and_true, isdigit]
    simp only [Bool.and_eq_true, decide_eq_true_eq, List.all_eq_true]
    exact ⟨repr_toList_ne_nil n, fun c => is_digit_of_mem_repr⟩
  have hfilter : n.repr.toList.filter (· ≠ '_') = n.repr.toList :=
    List.filter_eq_self.mpr fun c hc => by
      simp only [decide_eq_true_eq]
      rintro rfl
      exact hunderscore hc
  have hnatural := natural_repr n
  rw [int_of, (word_repr n).strip_eq]
  cases hdigits : n.repr.toList with
  | nil => exact absurd hdigits (repr_toList_ne_nil n)
  | cons c digits =>
      have hdigit : is_digit c = true := is_digit_of_mem_repr (n := n) (hdigits ▸ List.mem_cons_self)
      rw [hdigits] at hall hfilter hnatural
      have hminus : c ≠ '-' := by
        rintro rfl
        cases hdigit
      have hplus : c ≠ '+' := by
        rintro rfl
        cases hdigit
      dsimp only
      rw [if_neg hminus, if_neg hplus, if_pos hall, hfilter, hnatural]

end Words

section Lines

-- Lines without line ends come back from a text.
theorem splitlines_line {line rest : List Char} (h : ∀ c ∈ line, is_line_end c = false) :
    splitlines (line ++ '\n' :: rest) = line :: splitlines rest := by
  induction line with
  | nil =>
      rw [List.nil_append, splitlines, if_pos (by decide)]
      rintro _ heq -
      cases heq
  | cons c line ih =>
      have hc := h c List.mem_cons_self
      rw [List.cons_append, splitlines, if_neg (by simp [hc]),
        ih fun d hd => h d (List.mem_cons_of_mem _ hd)]
      rintro _ rfl -
      cases hc

theorem splitlines_lines {lines : List (List Char)}
    (h : ∀ line ∈ lines, ∀ c ∈ line, is_line_end c = false) :
    splitlines (lines.flatMap (· ++ ['\n'])) = lines := by
  induction lines with
  | nil => rfl
  | cons line lines ih =>
      rw [List.flatMap_cons, List.append_assoc, List.singleton_append,
        splitlines_line (h line List.mem_cons_self),
        ih fun other ho => h other (List.mem_cons_of_mem _ ho)]

end Lines

end CycleEnum.Benchmarks
