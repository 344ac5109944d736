import CycleEnum.Core.PartitionPoint
import CycleEnum.Core.Timestamp

namespace CycleEnum.Cuda

-- `CudaTimestampRange` has the fields and the functions of `TimestampRange`.
abbrev CudaTimestampRange := TimestampRange

-- The window end is an output parameter that is written only on success.
def checked_window_end (window_start window_width : Int) : Option Int :=
  if window_width < 0 then none
  else if window_start > MAX_TIMESTAMP - window_width then none
  else some (window_start + window_width)

def timestamp_lower_bound (values : List Int) (begin_ end_ : Nat) (target : Int) : Nat :=
  partition_point (fun mid => timestamp_at values mid < target) begin_ end_

def timestamp_upper_bound (values : List Int) (begin_ end_ : Nat) (target : Int) : Nat :=
  partition_point (fun mid => ¬target < timestamp_at values mid) begin_ end_

-- `CudaTimestampStartPolicy` has the values of `TimestampStartPolicy`.
abbrev CudaTimestampStartPolicy := TimestampStartPolicy

def timestamps_in_window (timestamps : List Int) (search_begin search_end : Nat)
    (window_start window_width : Int) (start_policy : CudaTimestampStartPolicy) :
    CudaTimestampRange :=
  match checked_window_end window_start window_width with
  | none => ⟨0, 0⟩
  | some window_end =>
      if search_begin > search_end then ⟨0, 0⟩
      else
        let begin_ :=
          if start_policy = .Inclusive then
            timestamp_lower_bound timestamps search_begin search_end window_start
          else timestamp_upper_bound timestamps search_begin search_end window_start
        ⟨begin_, timestamp_upper_bound timestamps begin_ search_end window_end⟩

def has_timestamp_in_window (timestamps : List Int) (search_begin search_end : Nat)
    (window_start window_width : Int) (start_policy : CudaTimestampStartPolicy) : Bool :=
  !(timestamps_in_window timestamps search_begin search_end window_start window_width
    start_policy).empty

def timestamps_after (timestamps : List Int) (search_begin search_end : Nat)
    (previous_timestamp window_end : Int) : CudaTimestampRange :=
  if search_begin > search_end then ⟨0, 0⟩
  else
    let begin_ := timestamp_upper_bound timestamps search_begin search_end previous_timestamp
    ⟨begin_, timestamp_upper_bound timestamps begin_ search_end window_end⟩

theorem checked_window_end_eq {start width : Int} (hw : 0 ≤ width)
    (hs : start ≤ MAX_TIMESTAMP - width) : checked_window_end start width = some (start + width) := by
  rw [checked_window_end, if_neg (by omega), if_neg (by omega)]

section Bounds

variable {timestamps : List Int} {first last : Nat} (h : Slice timestamps first last)

include h

-- The loop ends where the library's search ends.
theorem timestamp_upper_bound_eq (target : Int) :
    timestamp_upper_bound timestamps first last target = upper_bound timestamps first last target := by
  have hpoint : first ≤ timestamp_upper_bound timestamps first last target ∧
      timestamp_upper_bound timestamps first last target ≤ last := partition_point_mem h.le
  refine point_eq hpoint (upper_bound_mem h target) fun offset hf hl => ?_
  rw [lt_upper_bound_iff h target offset hf hl, timestamp_upper_bound,
    lt_partition_point_iff (fun i j hi hij hj hj' => ?_) hf hl]
  · simp
  · have := h.sorted i j hi hij hj
    simp only [decide_eq_true_eq] at hj' ⊢
    omega

theorem timestamp_lower_bound_eq (target : Int) :
    timestamp_lower_bound timestamps first last target = lower_bound timestamps first last target := by
  have hpoint : first ≤ timestamp_lower_bound timestamps first last target ∧
      timestamp_lower_bound timestamps first last target ≤ last := partition_point_mem h.le
  refine point_eq hpoint (lower_bound_mem h target) fun offset hf hl => ?_
  rw [lt_lower_bound_iff h target offset hf hl, timestamp_lower_bound,
    lt_partition_point_iff (fun i j hi hij hj hj' => ?_) hf hl]
  · simp
  · have := h.sorted i j hi hij hj
    simp only [decide_eq_true_eq] at hj' ⊢
    omega

theorem timestamps_after_eq (previous window_end : Int) :
    CycleEnum.timestamps_after timestamps first last previous window_end =
      .ok (timestamps_after timestamps first last previous window_end) := by
  have hle := h.le
  have hlen := h.le_length
  have hbound := upper_bound_mem h previous
  rw [timestamps_after, if_neg (by omega), timestamp_upper_bound_eq h]
  dsimp only
  rw [timestamp_upper_bound_eq (h.suffix hbound.1 hbound.2), CycleEnum.timestamps_after,
    if_neg (by omega)]
  rfl

theorem timestamps_in_window_eq {start width : Int} (hw : 0 ≤ width)
    (hs : start ≤ MAX_TIMESTAMP - width) (policy : CudaTimestampStartPolicy) :
    CycleEnum.timestamps_in_window timestamps first last start width policy =
      .ok (timestamps_in_window timestamps first last start width policy) := by
  have hle := h.le
  have hlen := h.le_length
  unfold CycleEnum.timestamps_in_window timestamps_in_window
  rw [checked_window_end_ok hw hs, checked_window_end_eq hw hs]
  dsimp only
  rw [if_neg (show ¬first > last by omega)]
  cases policy with
  | Inclusive =>
      have hbound := lower_bound_mem h start
      rw [if_pos rfl, timestamp_lower_bound_eq h,
        timestamp_upper_bound_eq (h.suffix hbound.1 hbound.2)]
      change (if first > last ∨ last > timestamps.length then _ else _) = _
      rw [if_neg (by omega)]
      rfl
  | AfterStart =>
      have hbound := upper_bound_mem h start
      rw [if_neg (by decide), timestamp_upper_bound_eq h,
        timestamp_upper_bound_eq (h.suffix hbound.1 hbound.2)]
      change (if first > last ∨ last > timestamps.length then _ else _) = _
      rw [if_neg (by omega)]
      rfl

theorem has_timestamp_in_window_eq {start width : Int} (hw : 0 ≤ width)
    (hs : start ≤ MAX_TIMESTAMP - width) (policy : CudaTimestampStartPolicy) :
    CycleEnum.has_timestamp_in_window timestamps first last start width policy =
      .ok (has_timestamp_in_window timestamps first last start width policy) := by
  rw [CycleEnum.has_timestamp_in_window, timestamps_in_window_eq h hw hs]
  rfl

omit h in
theorem timestamps_in_window_none {start width : Int}
    (hs : width < 0 ∨ MAX_TIMESTAMP - width < start) (policy : CudaTimestampStartPolicy) :
    timestamps_in_window timestamps first last start width policy = ⟨0, 0⟩ := by
  have hnone : checked_window_end start width = none := by
    rw [checked_window_end]
    split_ifs <;> first | rfl | omega
  rw [timestamps_in_window, hnone]

end Bounds

end CycleEnum.Cuda
