import CycleEnum.Core.Types
import Mathlib.Data.List.TakeWhile
import Mathlib.Data.List.Basic
import Mathlib.Tactic.Common
import Mathlib.Algebra.Order.Group.Int

namespace CycleEnum

-- The same helper stands in four source files.
def checked_window_end (window_start window_width : Int) : Except Error Int :=
  if window_width < 0 then
    .error (.invalid_argument "time window width must be non-negative")
  else if window_start > MAX_TIMESTAMP - window_width then
    .error (.overflow_error "time window end overflows timestamp range")
  else .ok (window_start + window_width)

structure TimestampRange where
  begin : Nat
  end_ : Nat
deriving DecidableEq, Repr

namespace TimestampRange

def empty (range : TimestampRange) : Bool := range.begin ≥ range.end_

def size (range : TimestampRange) : Nat :=
  if range.empty then 0 else range.end_ - range.begin

-- The offsets from begin to end, as the loops over a range visit them.
def offsets (range : TimestampRange) : List Nat :=
  List.range' range.begin (range.end_ - range.begin)

theorem size_eq (range : TimestampRange) : range.size = range.offsets.length := by
  simp only [size, empty, offsets, List.length_range', ge_iff_le, decide_eq_true_eq]
  split_ifs with h <;> omega

theorem empty_iff (range : TimestampRange) : range.empty = true ↔ range.offsets = [] := by
  simp [empty, offsets]
  omega

end TimestampRange

inductive TimestampStartPolicy where
  | Inclusive
  | AfterStart
deriving DecidableEq, Repr

def timestamp_at (timestamps : List Int) (offset : Nat) : Int := timestamps.getD offset 0

-- `std::lower_bound` and `std::upper_bound` over the offsets from `first` to
-- `last`: the end of the leading part below (not above) the value.
def lower_bound (timestamps : List Int) (first last : Nat) (value : Int) : Nat :=
  first + ((List.range' first (last - first)).takeWhile
    fun offset => timestamp_at timestamps offset < value).length

def upper_bound (timestamps : List Int) (first last : Nat) (value : Int) : Nat :=
  first + ((List.range' first (last - first)).takeWhile
    fun offset => timestamp_at timestamps offset ≤ value).length

def timestamps_in_window (timestamps : List Int) (search_begin search_end : Nat)
    (window_start window_width : Int) (start_policy : TimestampStartPolicy) :
    Except Error TimestampRange := do
  let window_end ← checked_window_end window_start window_width
  if search_begin > search_end ∨ search_end > timestamps.length then
    throw (.out_of_range "timestamp search range is out of bounds")
  let begin :=
    match start_policy with
    | .Inclusive => lower_bound timestamps search_begin search_end window_start
    | .AfterStart => upper_bound timestamps search_begin search_end window_start
  return ⟨begin, upper_bound timestamps begin search_end window_end⟩

def has_timestamp_in_window (timestamps : List Int) (search_begin search_end : Nat)
    (window_start window_width : Int) (start_policy : TimestampStartPolicy) :
    Except Error Bool := do
  let range ← timestamps_in_window timestamps search_begin search_end window_start window_width
    start_policy
  return !range.empty

def timestamps_after (timestamps : List Int) (search_begin search_end : Nat)
    (previous_timestamp window_end : Int) : Except Error TimestampRange := do
  if search_begin > search_end ∨ search_end > timestamps.length then
    throw (.out_of_range "timestamp search range is out of bounds")
  let begin := upper_bound timestamps search_begin search_end previous_timestamp
  return ⟨begin, upper_bound timestamps begin search_end window_end⟩

-- The offsets from `first` to `last` lie in the array and its values do not
-- decrease between them.
structure Slice (timestamps : List Int) (first last : Nat) : Prop where
  le : first ≤ last
  le_length : last ≤ timestamps.length
  sorted : ∀ i j, first ≤ i → i ≤ j → j < last →
    timestamp_at timestamps i ≤ timestamp_at timestamps j

theorem Slice.suffix {timestamps : List Int} {first last middle : Nat}
    (h : Slice timestamps first last) (hf : first ≤ middle) (hl : middle ≤ last) :
    Slice timestamps middle last :=
  ⟨hl, h.le_length, fun i j hi => h.sorted i j (hf.trans hi)⟩

-- A leading part of a range that is closed downwards ends where its condition does.
theorem mem_takeWhile_range' (first count offset : Nat) (keep : Nat → Bool)
    (hdown : ∀ i j, first ≤ i → i ≤ j → j < first + count → keep j = true → keep i = true)
    (hf : first ≤ offset) (hl : offset < first + count) :
    offset < first + ((List.range' first count).takeWhile keep).length ↔ keep offset = true := by
  induction count generalizing first with
  | zero => omega
  | succ count ih =>
      rw [List.range'_succ]
      cases hk : keep first with
      | false =>
          rw [List.takeWhile_cons_of_neg (by simp [hk])]
          simp only [List.length_nil, Nat.add_zero]
          have hno : keep offset = false := Bool.eq_false_iff.mpr fun ho => by
            simp [hdown first offset (Nat.le_refl _) hf hl ho] at hk
          simp only [hno, Bool.false_eq_true, iff_false]
          omega
      | true =>
          rw [List.takeWhile_cons_of_pos hk, List.length_cons]
          rcases Nat.eq_or_lt_of_le hf with rfl | hlt
          · simp only [hk, iff_true]
            omega
          · have hrest := ih (first + 1) (fun i j hi hij hj => hdown i j (by omega) hij (by omega))
              hlt (by omega)
            rw [← hrest]
            omega

section Bounds

variable {timestamps : List Int} {first last : Nat} (h : Slice timestamps first last)

include h

theorem lt_lower_bound_iff (value : Int) (offset : Nat) (hf : first ≤ offset)
    (hl : offset < last) :
    offset < lower_bound timestamps first last value ↔ timestamp_at timestamps offset < value := by
  have hle := h.le
  have hmem := mem_takeWhile_range' first (last - first) offset
    (fun offset => timestamp_at timestamps offset < value)
    (fun i j hi hij hj hk => by
      have := h.sorted i j hi hij (by omega)
      simp only [decide_eq_true_eq] at hk ⊢
      omega)
    hf (by omega)
  simpa [lower_bound] using hmem

theorem lt_upper_bound_iff (value : Int) (offset : Nat) (hf : first ≤ offset)
    (hl : offset < last) :
    offset < upper_bound timestamps first last value ↔ timestamp_at timestamps offset ≤ value := by
  have hle := h.le
  have hmem := mem_takeWhile_range' first (last - first) offset
    (fun offset => timestamp_at timestamps offset ≤ value)
    (fun i j hi hij hj hk => by
      have := h.sorted i j hi hij (by omega)
      simp only [decide_eq_true_eq] at hk ⊢
      omega)
    hf (by omega)
  simpa [upper_bound] using hmem

theorem lower_bound_mem (value : Int) :
    first ≤ lower_bound timestamps first last value ∧
      lower_bound timestamps first last value ≤ last := by
  have hlen := (List.takeWhile_sublist (l := List.range' first (last - first))
    (fun offset => decide (timestamp_at timestamps offset < value))).length_le
  have hle := h.le
  simp only [List.length_range', lower_bound] at hlen ⊢
  omega

theorem upper_bound_mem (value : Int) :
    first ≤ upper_bound timestamps first last value ∧
      upper_bound timestamps first last value ≤ last := by
  have hlen := (List.takeWhile_sublist (l := List.range' first (last - first))
    (fun offset => decide (timestamp_at timestamps offset ≤ value))).length_le
  have hle := h.le
  simp only [List.length_range', upper_bound] at hlen ⊢
  omega

end Bounds

theorem range'_split {first middle last : Nat} (hf : first ≤ middle) (hl : middle ≤ last) :
    List.range' first (last - first) =
      List.range' first (middle - first) ++ List.range' middle (last - middle) := by
  have hm : List.range' middle (last - middle) =
      List.range' (first + (middle - first)) (last - middle) := by
    congr 1
    omega
  rw [hm, List.range'_append_1]
  congr 1
  omega

-- A part of a range is what the range's filter keeps when it holds the offsets
-- that the filter accepts.
theorem range'_eq_filter {first last low high : Nat} {keep : Nat → Bool} (hf : first ≤ low)
    (hm : low ≤ high) (hl : high ≤ last)
    (hk : ∀ offset, first ≤ offset → offset < last →
      (keep offset = true ↔ low ≤ offset ∧ offset < high)) :
    List.range' low (high - low) = (List.range' first (last - first)).filter keep := by
  have hsplit : List.range' first (last - first) =
      List.range' first (low - first) ++ (List.range' low (high - low) ++
        List.range' high (last - high)) := by
    rw [range'_split hf (hm.trans hl), range'_split hm hl]
  have hnone : ∀ part : List Nat, (∀ offset ∈ part, first ≤ offset ∧ offset < last ∧
      ¬(low ≤ offset ∧ offset < high)) → part.filter keep = [] := by
    intro part hp
    refine List.filter_eq_nil_iff.mpr fun offset ho => ?_
    obtain ⟨h₁, h₂, h₃⟩ := hp offset ho
    rwa [hk offset h₁ h₂]
  have hall : (List.range' low (high - low)).filter keep = List.range' low (high - low) := by
    refine List.filter_eq_self.mpr fun offset ho => ?_
    rw [List.mem_range'_1] at ho
    exact (hk offset (by omega) (by omega)).mpr (by omega)
  rw [hsplit, List.filter_append, List.filter_append, hall,
    hnone _ fun offset ho => by rw [List.mem_range'_1] at ho; omega,
    hnone _ fun offset ho => by rw [List.mem_range'_1] at ho; omega]
  simp

-- Whether a timestamp lies in a window that starts at `start`.
def in_window (policy : TimestampStartPolicy) (start window_end time : Int) : Bool :=
  match policy with
  | .Inclusive => start ≤ time ∧ time ≤ window_end
  | .AfterStart => start < time ∧ time ≤ window_end

theorem checked_window_end_ok {start width : Int} (hw : 0 ≤ width)
    (hs : start ≤ MAX_TIMESTAMP - width) : checked_window_end start width = .ok (start + width) := by
  simp [checked_window_end, show ¬width < 0 by omega, show ¬start > MAX_TIMESTAMP - width by omega]

theorem of_checked_window_end {start width window_end : Int}
    (h : checked_window_end start width = .ok window_end) :
    0 ≤ width ∧ start ≤ MAX_TIMESTAMP - width ∧ start + width = window_end := by
  unfold checked_window_end at h
  split_ifs at h with hw hs
  exact ⟨by omega, by omega, Except.ok.inj h⟩

theorem checked_window_end_overflow {start width : Int} (hw : 0 ≤ width)
    (hs : MAX_TIMESTAMP - width < start) :
    checked_window_end start width =
      .error (.overflow_error "time window end overflows timestamp range") := by
  simp [checked_window_end, show ¬width < 0 by omega, hs]

theorem timestamps_in_window_spec {timestamps : List Int} {first last : Nat}
    (h : Slice timestamps first last) {start width : Int} (hw : 0 ≤ width)
    (hs : start ≤ MAX_TIMESTAMP - width) (policy : TimestampStartPolicy) :
    ∃ range, timestamps_in_window timestamps first last start width policy = .ok range ∧
      range.offsets = (List.range' first (last - first)).filter fun offset =>
        in_window policy start (start + width) (timestamp_at timestamps offset) := by
  have hle := h.le
  have hlen := h.le_length
  have hbad : ¬(first > last ∨ last > timestamps.length) := by omega
  cases policy with
  | Inclusive =>
      refine ⟨_, by simp [timestamps_in_window, checked_window_end_ok hw hs, hbad, bind,
        Except.bind, pure, Except.pure]; rfl, ?_⟩
      obtain ⟨hb₁, hb₂⟩ := lower_bound_mem h start
      have hrest := h.suffix hb₁ hb₂
      obtain ⟨he₁, he₂⟩ := upper_bound_mem hrest (start + width)
      refine range'_eq_filter hb₁ he₁ he₂ fun offset h₁ h₂ => ?_
      have hb := lt_lower_bound_iff h start offset h₁ h₂
      by_cases hlow : lower_bound timestamps first last start ≤ offset
      · have he := lt_upper_bound_iff hrest (start + width) offset hlow h₂
        simp only [in_window, decide_eq_true_eq]
        omega
      · simp only [in_window, decide_eq_true_eq]
        omega
  | AfterStart =>
      refine ⟨_, by simp [timestamps_in_window, checked_window_end_ok hw hs, hbad, bind,
        Except.bind, pure, Except.pure]; rfl, ?_⟩
      obtain ⟨hb₁, hb₂⟩ := upper_bound_mem h start
      have hrest := h.suffix hb₁ hb₂
      obtain ⟨he₁, he₂⟩ := upper_bound_mem hrest (start + width)
      refine range'_eq_filter hb₁ he₁ he₂ fun offset h₁ h₂ => ?_
      have hb := lt_upper_bound_iff h start offset h₁ h₂
      by_cases hlow : upper_bound timestamps first last start ≤ offset
      · have he := lt_upper_bound_iff hrest (start + width) offset hlow h₂
        simp only [in_window, decide_eq_true_eq]
        omega
      · simp only [in_window, decide_eq_true_eq]
        omega

theorem has_timestamp_in_window_spec {timestamps : List Int} {first last : Nat}
    (h : Slice timestamps first last) {start width : Int} (hw : 0 ≤ width)
    (hs : start ≤ MAX_TIMESTAMP - width) (policy : TimestampStartPolicy) :
    has_timestamp_in_window timestamps first last start width policy =
      .ok ((List.range' first (last - first)).any fun offset =>
        in_window policy start (start + width) (timestamp_at timestamps offset)) := by
  obtain ⟨range, hr, ho⟩ := timestamps_in_window_spec h hw hs policy
  rw [has_timestamp_in_window, hr]
  simp only [bind, Except.bind, pure, Except.pure]
  congr 1
  rw [Bool.eq_iff_iff, Bool.not_eq_true', ← Bool.not_eq_true, range.empty_iff, ho,
    List.filter_eq_nil_iff, List.any_eq_true]
  push Not
  rfl

theorem timestamps_after_spec {timestamps : List Int} {first last : Nat}
    (h : Slice timestamps first last) (previous window_end : Int) :
    ∃ range, timestamps_after timestamps first last previous window_end = .ok range ∧
      range.offsets = (List.range' first (last - first)).filter fun offset =>
        in_window .AfterStart previous window_end (timestamp_at timestamps offset) := by
  have hle := h.le
  have hlen := h.le_length
  have hbad : ¬(first > last ∨ last > timestamps.length) := by omega
  refine ⟨_, by simp [timestamps_after, hbad, pure, Except.pure]; rfl, ?_⟩
  obtain ⟨hb₁, hb₂⟩ := upper_bound_mem h previous
  have hrest := h.suffix hb₁ hb₂
  obtain ⟨he₁, he₂⟩ := upper_bound_mem hrest window_end
  refine range'_eq_filter hb₁ he₁ he₂ fun offset h₁ h₂ => ?_
  have hb := lt_upper_bound_iff h previous offset h₁ h₂
  by_cases hlow : upper_bound timestamps first last previous ≤ offset
  · have he := lt_upper_bound_iff hrest window_end offset hlow h₂
    simp only [in_window, decide_eq_true_eq]
    omega
  · simp only [in_window, decide_eq_true_eq]
    omega

end CycleEnum
