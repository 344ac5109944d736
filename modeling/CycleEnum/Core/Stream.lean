import Mathlib.Data.List.TakeWhile
import Mathlib.Data.List.Chain
import Mathlib.Algebra.Order.Ring.Int
import Mathlib.Tactic.Common

namespace CycleEnum

-- Extraction from a stream of characters, as the `>>` of `std::istringstream` does it
-- in the C locale. A character stands for a byte.
def is_space (c : Char) : Bool := c = ' ' || 9 ≤ c.toNat && c.toNat ≤ 13

def is_digit (c : Char) : Bool := 48 ≤ c.toNat && c.toNat ≤ 57

def is_sign (c : Char) : Bool := c = '+' || c = '-'

-- The longest part in front that can begin a number, and what is left.
def take_number : List Char → List Char × List Char
  | [] => ([], [])
  | c :: text =>
      if is_sign c then (c :: text.takeWhile is_digit, text.dropWhile is_digit)
      else ((c :: text).takeWhile is_digit, (c :: text).dropWhile is_digit)

def natural (digits : List Char) : Option Int :=
  if digits ≠ [] ∧ digits.all is_digit then
    some (digits.foldl (fun value c => 10 * value + (c.toNat - 48 : Nat)) 0)
  else none

-- The value of an optionally signed decimal integer.
def number_value : List Char → Option Int
  | [] => none
  | c :: text =>
      if c = '-' then (natural text).map (- ·)
      else if c = '+' then natural text
      else natural (c :: text)

def fits_int64 (value : Int) : Bool := -2 ^ 63 ≤ value && value < 2 ^ 63

-- What is left of a stream, with its `failbit` and its `eofbit`.
structure Stream where
  rest : List Char
  fail : Bool
  eof : Bool
deriving DecidableEq, Repr

namespace Stream

def of_text (text : List Char) : Stream := ⟨text, false, false⟩

def good (stream : Stream) : Bool := !stream.fail && !stream.eof

def clear (stream : Stream) : Stream := { stream with fail := false, eof := false }

-- A number is consumed also when it has no digit or does not fit 64 bits.
def extract_integer (stream : Stream) : Option Int × Stream :=
  if stream.good = false then (none, { stream with fail := true })
  else
    let text := stream.rest.dropWhile is_space
    if text = [] then (none, ⟨[], true, true⟩)
    else
      let (taken, rest) := take_number text
      match (number_value taken).filter fits_int64 with
      | some value => (some value, ⟨rest, false, rest.isEmpty⟩)
      | none => (none, ⟨rest, true, rest.isEmpty⟩)

def extract_string (stream : Stream) : Option (List Char) × Stream :=
  if stream.good = false then (none, { stream with fail := true })
  else
    let text := stream.rest.dropWhile is_space
    if text = [] then (none, ⟨[], true, true⟩)
    else
      let rest := text.dropWhile fun c => !is_space c
      (some (text.takeWhile fun c => !is_space c), ⟨rest, false, rest.isEmpty⟩)

end Stream

-- The runs of characters other than blanks, cut wherever neighbours are not joined.
def chunks (joined : Char → Char → Bool) : List Char → List (List Char)
  | [] => []
  | c :: text =>
      if is_space c then chunks joined text
      else if text.head?.any fun d => !is_space d && joined c d then
        (chunks joined text).modifyHead (c :: ·)
      else [c] :: chunks joined text

-- The fields of a line.
def fields (text : List Char) : List (List Char) := chunks (fun _ _ => true) text

-- The fields, cut also before every sign behind a digit.
def pieces (text : List Char) : List (List Char) := chunks (fun c d => !(is_digit c && is_sign d)) text

-- An integer that 64 bits represent, alone in its field.
def Literal (field : List Char) : Prop := ∃ value, number_value field = some value ∧ fits_int64 value

-- A sign, or no sign, and digits, of which there may be none behind a sign.
def Numeric (field : List Char) : Prop :=
  field ≠ [] ∧ ∃ sign digits, field = sign ++ digits ∧ (∀ c ∈ digits, is_digit c = true) ∧
    (sign = [] ∨ ∃ c, is_sign c = true ∧ sign = [c])

section Chunks

variable {joined : Char → Char → Bool} {text rest : List Char} {c d : Char}

theorem chunks_space (h : is_space c = true) : chunks joined (c :: text) = chunks joined text := by
  rw [chunks, if_pos h]

-- A chunk ends at the end of the text, at a blank and between neighbours not joined.
theorem chunks_break (h : is_space c = false)
    (hend : ∀ d, text.head? = some d → is_space d = true ∨ joined c d = false) :
    chunks joined (c :: text) = [c] :: chunks joined text := by
  rw [chunks, if_neg (by simp [h]), if_neg]
  rw [Option.any_eq_true]
  rintro ⟨d, hd, hj⟩
  rcases hend d hd with hs | hs
  · simp [hs] at hj
  · simp [hs] at hj

theorem chunks_join (h : is_space c = false) (hd : is_space d = false) (hj : joined c d = true) :
    chunks joined (c :: d :: text) = (chunks joined (d :: text)).modifyHead (c :: ·) := by
  rw [chunks, if_neg (by simp [h]), if_pos (by simp [hd, hj])]

theorem chunks_ne_nil (h : is_space c = false) : chunks joined (c :: text) ≠ [] := by
  induction text generalizing c with
  | nil => simp [chunks, h]
  | cons d text ih =>
      rw [chunks, if_neg (by simp [h])]
      split_ifs with hd
      · have hne := ih (c := d) (by simp at hd; simp [hd.1])
        simpa using hne
      · simp

theorem chunks_dropWhile : chunks joined (text.dropWhile is_space) = chunks joined text := by
  induction text with
  | nil => rfl
  | cons c text ih =>
      cases hc : is_space c with
      | true => rw [List.dropWhile_cons_of_pos hc, ih, chunks_space hc]
      | false => rw [List.dropWhile_cons_of_neg (by simp [hc])]

theorem chunks_eq_nil_iff : chunks joined text = [] ↔ text.dropWhile is_space = [] := by
  induction text with
  | nil => simp [chunks]
  | cons c text ih =>
      cases hc : is_space c with
      | true => rw [chunks_space hc, List.dropWhile_cons_of_pos hc, ih]
      | false =>
          rw [List.dropWhile_cons_of_neg (by simp [hc])]
          simpa using chunks_ne_nil hc

-- A word of joined characters is a chunk where the text breaks behind it.
theorem chunks_word (rest : List Char) {word : List Char} (hne : word ≠ [])
    (hspace : ∀ c ∈ word, is_space c = false)
    (hjoin : word.IsChain fun c d => joined c d = true)
    (hend : ∀ c d, word.getLast? = some c → rest.head? = some d →
      is_space d = true ∨ joined c d = false) :
    chunks joined (word ++ rest) = word :: chunks joined rest := by
  induction word with
  | nil => exact absurd rfl hne
  | cons c word ih =>
      cases word with
      | nil => exact chunks_break (hspace c (by simp)) fun d hd => hend c d rfl hd
      | cons d word =>
          have hcd := List.isChain_cons_cons.mp hjoin
          have hword := ih (by simp) (fun x hx => hspace x (List.mem_cons_of_mem _ hx)) hcd.2
            (fun x y hx hy => hend x y (by simpa using hx) hy)
          rw [List.cons_append, List.cons_append,
            chunks_join (hspace c (by simp)) (hspace d (by simp)) hcd.1]
          rw [List.cons_append] at hword
          rw [hword]
          rfl

theorem chunks_head (h : is_space d = false) :
    ∃ more others, chunks joined (d :: rest) = (d :: more) :: others := by
  rw [chunks, if_neg (by simp [h])]
  split_ifs with hnext
  · obtain ⟨chunk, others, heq⟩ : ∃ chunk others, chunks joined rest = chunk :: others := by
      cases rest with
      | nil => simp at hnext
      | cons e rest =>
          simp only [List.head?_cons, Option.any_some, Bool.and_eq_true,
            Bool.not_eq_true'] at hnext
          exact List.exists_cons_of_ne_nil (chunks_ne_nil hnext.1)
    exact ⟨chunk, others, by rw [heq]; rfl⟩
  · exact ⟨[], chunks joined rest, rfl⟩

-- Where it does not break, the first chunk goes on.
theorem chunks_longer (rest : List Char) {word : List Char} (hspace : ∀ c ∈ word, is_space c = false)
    (hjoin : (word ++ [d]).IsChain fun c d => joined c d = true) (hd : is_space d = false) :
    ∃ more others, chunks joined (word ++ d :: rest) = (word ++ d :: more) :: others := by
  induction word with
  | nil => exact chunks_head hd
  | cons c word ih =>
      have hchain : (c :: (word ++ [d])).IsChain fun c d => joined c d = true := hjoin
      obtain ⟨more, others, heq⟩ :=
        ih (fun x hx => hspace x (List.mem_cons_of_mem _ hx)) hchain.of_cons
      refine ⟨more, others, ?_⟩
      cases word with
      | nil =>
          have hcd := List.isChain_cons_cons.mp hjoin
          rw [List.cons_append, List.nil_append, chunks_join (hspace c (by simp)) hd hcd.1]
          rw [List.nil_append] at heq
          rw [heq]
          rfl
      | cons e word =>
          have hce := List.isChain_cons_cons.mp hjoin
          rw [List.cons_append, List.cons_append,
            chunks_join (hspace c (by simp)) (hspace e (by simp)) hce.1]
          rw [List.cons_append] at heq
          rw [heq]
          rfl

end Chunks

section Numbers

variable {text rest taken more : List Char} {c d : Char}

theorem not_space_of_digit (h : is_digit c = true) : is_space c = false := by
  simp only [is_digit, Bool.and_eq_true, decide_eq_true_eq] at h
  have hc : c ≠ ' ' := by
    intro hc
    subst hc
    simp at h
  simp only [is_space, Bool.or_eq_false_iff, decide_eq_false_iff_not, Bool.and_eq_false_iff]
  exact ⟨hc, Or.inr (by omega)⟩

theorem not_space_of_sign (h : is_sign c = true) : is_space c = false := by
  simp only [is_sign, Bool.or_eq_true, decide_eq_true_eq] at h
  rcases h with rfl | rfl
  · rfl
  · rfl

theorem not_digit_of_sign (h : is_sign c = true) : is_digit c = false := by
  simp only [is_sign, Bool.or_eq_true, decide_eq_true_eq] at h
  rcases h with rfl | rfl
  · rfl
  · rfl

-- What the taken characters are: a sign or none, then digits.
theorem take_number_spec (h : take_number text = (taken, rest)) :
    text = taken ++ rest ∧ (∀ d, rest.head? = some d → is_digit d = false) ∧
      (taken = [] → ∀ d, rest.head? = some d → is_sign d = false) ∧
      ∃ sign digits, taken = sign ++ digits ∧ (∀ c ∈ digits, is_digit c = true) ∧
        (sign = [] ∨ ∃ c, is_sign c = true ∧ sign = [c]) := by
  cases text with
  | nil =>
      obtain ⟨rfl, rfl⟩ := Prod.mk.inj h
      exact ⟨rfl, by simp, by simp, [], [], rfl, by simp, Or.inl rfl⟩
  | cons c text =>
      have hend : ∀ text : List Char, ∀ d, (text.dropWhile is_digit).head? = some d →
          is_digit d = false := by
        intro text d hd
        have hhead := List.head?_dropWhile_not is_digit text
        rw [hd] at hhead
        simpa using hhead
      rw [take_number] at h
      split_ifs at h with hc
      · obtain ⟨rfl, rfl⟩ := Prod.mk.inj h
        exact ⟨by simp, hend text, by simp, [c], text.takeWhile is_digit, rfl,
          fun x hx => List.mem_takeWhile_imp hx, Or.inr ⟨c, hc, rfl⟩⟩
      · obtain ⟨rfl, rfl⟩ := Prod.mk.inj h
        refine ⟨(List.takeWhile_append_dropWhile).symm, hend (c :: text), fun hnil d hd => ?_, [],
          (c :: text).takeWhile is_digit, rfl, fun x hx => List.mem_takeWhile_imp hx, Or.inl rfl⟩
        have hdigit : is_digit c = false := by
          cases hdc : is_digit c with
          | true => simp [hdc] at hnil
          | false => rfl
        rw [List.dropWhile_cons_of_neg (by simp [hdigit])] at hd
        obtain rfl : c = d := by simpa using hd
        simpa using hc

theorem take_number_append (h : take_number text = (taken, rest)) (hd : is_digit d = false)
    (hsign : taken = [] → is_sign d = false) :
    take_number (taken ++ d :: more) = (taken, d :: more) := by
  obtain ⟨-, -, -, sign, digits, rfl, hdigits, hs⟩ := take_number_spec h
  have htake : (digits ++ d :: more).takeWhile is_digit = digits := by
    rw [List.takeWhile_append_of_pos hdigits, List.takeWhile_cons_of_neg (by simp [hd]),
      List.append_nil]
  have hdrop : (digits ++ d :: more).dropWhile is_digit = d :: more := by
    rw [List.dropWhile_append_of_pos hdigits, List.dropWhile_cons_of_neg (by simp [hd])]
  rcases hs with rfl | ⟨c, hc, rfl⟩
  · cases digits with
    | nil => simp [take_number, hsign rfl, hd]
    | cons c digits =>
        have hc : is_sign c = false := by
          cases hc : is_sign c with
          | true => simp [not_digit_of_sign hc] at hdigits
          | false => rfl
        rw [List.nil_append, List.cons_append, take_number, if_neg (by simp [hc]),
          ← List.cons_append, htake, hdrop]
  · rw [List.append_assoc, List.singleton_append, take_number, if_pos hc, htake, hdrop]
    rfl

theorem numeric_of_taken (h : take_number text = (taken, rest)) (hne : taken ≠ []) :
    Numeric taken :=
  ⟨hne, (take_number_spec h).2.2.2⟩

theorem Numeric.take_number {field : List Char} (h : Numeric field) :
    take_number field = (field, []) := by
  obtain ⟨hne, sign, digits, rfl, hdigits, hs⟩ := h
  have htake : digits.takeWhile is_digit = digits := List.takeWhile_eq_self_iff.mpr hdigits
  have hdrop : digits.dropWhile is_digit = [] := List.dropWhile_eq_nil_iff.mpr hdigits
  rcases hs with rfl | ⟨c, hc, rfl⟩
  · cases digits with
    | nil => exact absurd rfl hne
    | cons c digits =>
        have hc : is_sign c = false := by
          cases hc : is_sign c with
          | true => simp [not_digit_of_sign hc] at hdigits
          | false => rfl
        rw [List.nil_append, CycleEnum.take_number, if_neg (by simp [hc]), htake, hdrop]
  · rw [List.singleton_append, CycleEnum.take_number, if_pos hc, htake, hdrop]

theorem not_numeric_append (h : take_number text = (taken, rest)) (hd : is_digit d = false)
    (hsign : taken = [] → is_sign d = false) : ¬ Numeric (taken ++ d :: more) := by
  intro hn
  have heq := hn.take_number
  rw [take_number_append h hd hsign] at heq
  simp at heq

-- A literal is a number with a digit at its end.
theorem number_value_some {field : List Char} {value : Int} (h : number_value field = some value) :
    Numeric field ∧ ∃ c, field.getLast? = some c ∧ is_digit c = true := by
  have hnat : ∀ {digits : List Char} {value : Int}, natural digits = some value →
      digits ≠ [] ∧ ∀ c ∈ digits, is_digit c = true := by
    intro digits value h
    rw [natural] at h
    split_ifs at h with hd
    exact ⟨hd.1, by simpa using hd.2⟩
  have hlast : ∀ {digits : List Char}, digits ≠ [] → (∀ c ∈ digits, is_digit c = true) →
      ∃ c, digits.getLast? = some c ∧ is_digit c = true := fun hne hall =>
    ⟨_, List.getLast?_eq_some_getLast hne, hall _ (List.getLast_mem hne)⟩
  have hsigned : ∀ {c : Char} {digits : List Char}, is_sign c = true → digits ≠ [] →
      (∀ c ∈ digits, is_digit c = true) →
      Numeric (c :: digits) ∧ ∃ d, (c :: digits).getLast? = some d ∧ is_digit d = true := by
    intro c digits hc hne hall
    obtain ⟨d, hd, hdigit⟩ := hlast hne hall
    exact ⟨⟨by simp, [c], digits, rfl, hall, Or.inr ⟨c, hc, rfl⟩⟩, d,
      by rw [List.getLast?_cons_of_ne_nil hne, hd], hdigit⟩
  cases field with
  | nil => simp [number_value] at h
  | cons c text =>
      rw [number_value] at h
      split_ifs at h with hminus hplus
      · obtain ⟨value, hv, -⟩ := Option.map_eq_some_iff.mp h
        obtain ⟨hne, hall⟩ := hnat hv
        exact hsigned (by simp [is_sign, hminus]) hne hall
      · obtain ⟨hne, hall⟩ := hnat h
        exact hsigned (by simp [is_sign, hplus]) hne hall
      · obtain ⟨hne, hall⟩ := hnat h
        exact ⟨⟨hne, [], c :: text, rfl, hall, Or.inl rfl⟩, hlast hne hall⟩

theorem literal_numeric {field : List Char} (h : Literal field) : Numeric field := by
  obtain ⟨value, hv, -⟩ := h
  exact (number_value_some hv).1

end Numbers

section Extraction

-- A stream that one can go on reading from, or that is read to its end.
def Stream.Open (stream : Stream) : Prop :=
  stream.fail = false ∧ (stream.eof = true → stream.rest = [])

-- An extraction by the text alone.
def next_number (text : List Char) : Option Int × List Char :=
  let (taken, rest) := take_number (text.dropWhile is_space)
  ((number_value taken).filter fits_int64, rest)

variable {stream : Stream}

theorem Stream.open_of_text (text : List Char) : (of_text text).Open := ⟨rfl, by simp [of_text]⟩

theorem Stream.open_clear (stream : Stream) : stream.clear.Open := ⟨rfl, by simp [clear]⟩

theorem Stream.Open.good_or (h : stream.Open) : stream.good = true ∨ stream.rest = [] := by
  cases he : stream.eof with
  | true => exact Or.inr (h.2 he)
  | false => exact Or.inl (by simp [good, h.1, he])

theorem Stream.extract_integer_spec {value : Option Int} {rest : List Char}
    (hg : stream.good = true) (hn : next_number stream.rest = (value, rest)) :
    ∃ eof, stream.extract_integer = (value, ⟨rest, value.isNone, eof⟩) ∧
      (eof = true → rest = []) := by
  rw [Stream.extract_integer, if_neg (by simp [hg])]
  rw [next_number] at hn
  revert hn
  generalize stream.rest.dropWhile is_space = text
  intro hn
  generalize htake : take_number text = number at hn ⊢
  obtain ⟨taken, left⟩ := number
  obtain ⟨hvalue, rfl⟩ := Prod.mk.inj hn
  by_cases htext : text = []
  · rw [htext, take_number] at htake
    obtain ⟨rfl, rfl⟩ := Prod.mk.inj htake
    obtain rfl : none = value := by simpa [number_value] using hvalue
    exact ⟨true, by simp [htext], by simp⟩
  · refine ⟨left.isEmpty, ?_, by simp⟩
    simp only [if_neg htext, htake, hvalue]
    cases value with
    | none => rfl
    | some value => rfl

theorem Stream.Open.extract_integer (h : stream.Open) {value : Option Int} {rest : List Char}
    (hn : next_number stream.rest = (value, rest)) :
    ∃ stream', stream.extract_integer = (value, stream') ∧ stream'.rest = rest ∧
      (value = none → stream'.fail = true) ∧ (value ≠ none → stream'.Open) := by
  rcases Bool.eq_false_or_eq_true stream.good with hg | hg
  · obtain ⟨eof, heq, heof⟩ := Stream.extract_integer_spec hg hn
    refine ⟨_, heq, rfl, fun hv => by simp [hv], fun hv => ⟨?_, heof⟩⟩
    simpa using Option.isSome_iff_ne_none.mpr hv
  · have hrest : stream.rest = [] := h.good_or.resolve_left (by simp [hg])
    rw [hrest] at hn
    obtain ⟨rfl, rfl⟩ := Prod.mk.inj hn
    rw [Stream.extract_integer, if_pos hg]
    exact ⟨{ stream with fail := true }, rfl, hrest, fun _ => rfl, fun hv => absurd rfl hv⟩

theorem Stream.Open.extract_string (h : stream.Open) :
    stream.extract_string.1.isSome = decide (stream.rest.dropWhile is_space ≠ []) := by
  rcases Bool.eq_false_or_eq_true stream.good with hg | hg
  · rw [Stream.extract_string, if_neg (by simp [hg])]
    generalize stream.rest.dropWhile is_space = text
    by_cases htext : text = []
    · simp [htext]
    · simp [htext]
  · have hrest : stream.rest = [] := h.good_or.resolve_left (by simp [hg])
    rw [Stream.extract_string, if_pos hg]
    simp [hrest]

end Extraction

end CycleEnum
