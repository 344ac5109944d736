import CycleEnum.Cuda.Timestamp

namespace CycleEnum.Cuda

-- The loops of `timestamp_lower_bound` and `timestamp_upper_bound` pass by pass, in
-- 64-bit arithmetic. There is no result where the fuel runs out or a read fails.
def search_loop (read : Nat → Option Int) (before : Int → Bool) : Nat → Nat → Nat → Option Nat
  | 0, begin_, end_ => if begin_ < end_ then none else some begin_
  | fuel + 1, begin_, end_ =>
      if begin_ < end_ then
        let mid := (begin_ + (end_ - begin_) / 2) % 2 ^ 64
        match read mid with
        | none => none
        | some value =>
            if before value then search_loop read before fuel ((mid + 1) % 2 ^ 64) end_
            else search_loop read before fuel begin_ mid
      else some begin_

def lower_bound_loop (read : Nat → Option Int) (fuel begin_ end_ : Nat) (target : Int) :
    Option Nat :=
  search_loop read (fun value => value < target) fuel begin_ end_

def upper_bound_loop (read : Nat → Option Int) (fuel begin_ end_ : Nat) (target : Int) :
    Option Nat :=
  search_loop read (fun value => ¬target < value) fuel begin_ end_

-- Reads of a part of an array, which fail outside of it.
def read_part (timestamps : List Int) (first last offset : Nat) : Option Int :=
  if first ≤ offset ∧ offset < last then timestamps[offset]? else none

theorem read_part_eq {timestamps : List Int} {first last offset : Nat} (hf : first ≤ offset)
    (hl : offset < last) (hlen : last ≤ timestamps.length) :
    read_part timestamps first last offset = some (timestamp_at timestamps offset) := by
  have hin : offset < timestamps.length := by omega
  rw [read_part, if_pos ⟨hf, hl⟩, timestamp_at, List.getD_eq_getElem?_getD,
    List.getElem?_eq_getElem hin, Option.getD_some]

-- Every pass halves the part that is left, and reads inside of it.
theorem search_loop_eq {read : Nat → Option Int} {values : Nat → Int} (before : Int → Bool)
    {fuel first last : Nat} (hread : ∀ i, first ≤ i → i < last → read i = some (values i))
    (hsize : last < 2 ^ 64) (hfuel : last - first ≤ fuel) :
    search_loop read before fuel first last =
      some (partition_point (fun i => before (values i)) first last) := by
  induction fuel generalizing first last with
  | zero =>
      rw [search_loop, partition_point, if_neg (by omega), if_neg (by omega)]
  | succ fuel ih =>
      rw [search_loop, partition_point]
      by_cases hlt : first < last
      · have hmid : (first + (last - first) / 2) % 2 ^ 64 = first + (last - first) / 2 :=
          Nat.mod_eq_of_lt (by omega)
        have hnext : (first + (last - first) / 2 + 1) % 2 ^ 64 = first + (last - first) / 2 + 1 :=
          Nat.mod_eq_of_lt (by omega)
        simp only [if_pos hlt, hmid, hnext]
        rw [hread (first + (last - first) / 2) (by omega) (by omega)]
        dsimp only
        by_cases hbefore : before (values (first + (last - first) / 2)) = true
        · have hleft : last - (first + (last - first) / 2 + 1) ≤ fuel := by omega
          rw [if_pos hbefore, if_pos hbefore]
          exact ih (fun i hi hl => hread i (by omega) hl) hsize hleft
        · have hleft : first + (last - first) / 2 - first ≤ fuel := by omega
          rw [if_neg hbefore, if_neg hbefore]
          exact ih (fun i hi hl => hread i hi (by omega)) (by omega) hleft
      · rw [if_neg hlt, if_neg hlt]

-- Where two bounds cut a part, the offsets between them are those that pass the filter.
theorem range_iff_of_filter {range : TimestampRange} {first last : Nat} {keep : Nat → Bool}
    (h : range.offsets = (List.range' first (last - first)).filter keep) {offset : Nat}
    (hf : first ≤ offset) (hl : offset < last) :
    (range.begin ≤ offset ∧ offset < range.end_) ↔ keep offset = true := by
  have hmem : offset ∈ range.offsets ↔ keep offset = true := by
    rw [h, List.mem_filter, List.mem_range'_1, and_iff_right (by omega)]
  rw [← hmem, TimestampRange.offsets, List.mem_range'_1]
  omega

section Lookups

variable {timestamps : List Int} {first last : Nat} (h : Slice timestamps first last)

include h

theorem timestamps_in_window_mem {start width : Int} (hw : 0 ≤ width)
    (hs : start ≤ MAX_TIMESTAMP - width) (policy : CudaTimestampStartPolicy) :
    first ≤ (timestamps_in_window timestamps first last start width policy).begin ∧
      (timestamps_in_window timestamps first last start width policy).begin ≤
        (timestamps_in_window timestamps first last start width policy).end_ ∧
      (timestamps_in_window timestamps first last start width policy).end_ ≤ last := by
  have hle := h.le
  rw [timestamps_in_window, checked_window_end_eq hw hs]
  dsimp only
  rw [if_neg (show ¬first > last by omega)]
  cases policy with
  | Inclusive =>
      have hbound := lower_bound_mem h start
      have hrest := h.suffix hbound.1 hbound.2
      rw [if_pos rfl, timestamp_lower_bound_eq h, timestamp_upper_bound_eq hrest]
      exact ⟨hbound.1, upper_bound_mem hrest _⟩
  | AfterStart =>
      have hbound := upper_bound_mem h start
      have hrest := h.suffix hbound.1 hbound.2
      rw [if_neg (by decide), timestamp_upper_bound_eq h, timestamp_upper_bound_eq hrest]
      exact ⟨hbound.1, upper_bound_mem hrest _⟩

theorem timestamps_after_mem (previous window_end : Int) :
    first ≤ (timestamps_after timestamps first last previous window_end).begin ∧
      (timestamps_after timestamps first last previous window_end).begin ≤
        (timestamps_after timestamps first last previous window_end).end_ ∧
      (timestamps_after timestamps first last previous window_end).end_ ≤ last := by
  have hle := h.le
  have hbound := upper_bound_mem h previous
  have hrest := h.suffix hbound.1 hbound.2
  rw [timestamps_after, if_neg (show ¬first > last by omega)]
  dsimp only
  rw [timestamp_upper_bound_eq h, timestamp_upper_bound_eq hrest]
  exact ⟨hbound.1, upper_bound_mem hrest _⟩

end Lookups

-- On a part of an array that does not decrease, the device loops end after no more
-- passes than the part has entries and read nothing else, the device's lookups give the
-- offsets of the host's, and these delimit the entries that were asked for. Where the
-- host rejects the window, the device's range is empty.
theorem timestamp_lookups_agree {timestamps : List Int} {first last : Nat}
    (hsize : timestamps.length < 2 ^ 64) (h : Slice timestamps first last)
    (start width previous window_end : Int) (policy : TimestampStartPolicy) :
    (∀ begin_ fuel target, first ≤ begin_ → begin_ ≤ last → last - begin_ ≤ fuel →
      lower_bound_loop (read_part timestamps first last) fuel begin_ last target =
          some (timestamp_lower_bound timestamps begin_ last target) ∧
        upper_bound_loop (read_part timestamps first last) fuel begin_ last target =
          some (timestamp_upper_bound timestamps begin_ last target)) ∧
    (0 ≤ width ∧ start + width ≤ MAX_TIMESTAMP →
      ∃ range, CycleEnum.timestamps_in_window timestamps first last start width policy = .ok range ∧
        timestamps_in_window timestamps first last start width policy = range ∧
        (first ≤ range.begin ∧ range.begin ≤ range.end_ ∧ range.end_ ≤ last) ∧
        ∀ offset, first ≤ offset → offset < last →
          ((range.begin ≤ offset ∧ offset < range.end_) ↔
            in_window policy start (start + width) (timestamp_at timestamps offset) = true)) ∧
    (¬(0 ≤ width ∧ start + width ≤ MAX_TIMESTAMP) →
      (∃ error, CycleEnum.timestamps_in_window timestamps first last start width policy =
        .error error) ∧
      (timestamps_in_window timestamps first last start width policy).empty = true) ∧
    ∃ range, CycleEnum.timestamps_after timestamps first last previous window_end = .ok range ∧
      timestamps_after timestamps first last previous window_end = range ∧
      (first ≤ range.begin ∧ range.begin ≤ range.end_ ∧ range.end_ ≤ last) ∧
      ∀ offset, first ≤ offset → offset < last →
        ((range.begin ≤ offset ∧ offset < range.end_) ↔
          previous < timestamp_at timestamps offset ∧
            timestamp_at timestamps offset ≤ window_end) := by
  have hlen := h.le_length
  refine ⟨fun begin_ fuel target hf hl hfuel => ?_, fun hfits => ?_, fun hbad => ?_, ?_⟩
  · have hread : ∀ i, begin_ ≤ i → i < last →
        read_part timestamps first last i = some (timestamp_at timestamps i) :=
      fun i hi hl => read_part_eq (by omega) hl hlen
    exact ⟨search_loop_eq _ hread (by omega) hfuel, search_loop_eq _ hread (by omega) hfuel⟩
  · obtain ⟨hw, hs⟩ := hfits
    have hs' : start ≤ MAX_TIMESTAMP - width := by omega
    obtain ⟨range, hok, hoffsets⟩ := timestamps_in_window_spec h hw hs' policy
    have hsame := (timestamps_in_window_eq h hw hs' policy).symm.trans hok
    refine ⟨range, hok, Except.ok.inj hsame, ?_, fun offset => range_iff_of_filter hoffsets⟩
    rw [← Except.ok.inj hsame]
    exact timestamps_in_window_mem h hw hs' policy
  · have hbad' : width < 0 ∨ MAX_TIMESTAMP - width < start := by omega
    refine ⟨?_, by rw [timestamps_in_window_none hbad']; rfl⟩
    cases hend : CycleEnum.checked_window_end start width with
    | error error =>
        refine ⟨error, ?_⟩
        unfold CycleEnum.timestamps_in_window
        rw [hend]
        rfl
    | ok window_end =>
        obtain ⟨hw, hs, -⟩ := of_checked_window_end hend
        omega
  · obtain ⟨range, hok, hoffsets⟩ := timestamps_after_spec h previous window_end
    have hsame := (timestamps_after_eq h previous window_end).symm.trans hok
    refine ⟨range, hok, Except.ok.inj hsame, ?_, fun offset hf hl => ?_⟩
    · rw [← Except.ok.inj hsame]
      exact timestamps_after_mem h previous window_end
    · rw [range_iff_of_filter hoffsets hf hl]
      simp only [in_window, decide_eq_true_eq]

theorem sorted_sample : Slice [1, 2, 2, 4, 7] 0 5 := by
  have hall : ∀ j, j < 5 → ∀ i, i ≤ j →
      timestamp_at [1, 2, 2, 4, 7] i ≤ timestamp_at [1, 2, 2, 4, 7] j := by decide
  exact ⟨by decide, by decide, fun i j _ hij hj => hall j hj i hij⟩

theorem timestamp_lookups_agree_sample :
    ∃ range, CycleEnum.timestamps_after [1, 2, 2, 4, 7] 0 5 2 6 = .ok range ∧
      timestamps_after [1, 2, 2, 4, 7] 0 5 2 6 = range :=
  have h := @timestamp_lookups_agree [1, 2, 2, 4, 7] 0 5
    (by decide) sorted_sample 0 0 2 6 .Inclusive
  h.2.2.2.imp fun _ hr => ⟨hr.1, hr.2.1⟩

end CycleEnum.Cuda
