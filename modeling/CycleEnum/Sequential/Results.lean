import CycleEnum.Core.Exceptions
import CycleEnum.Sequential.LateStarts
import CycleEnum.Sequential.TemporalWays

namespace CycleEnum.Sequential

open CycleHistogram (record_throws)
open TemporalJohnsonSearch (PathsFit)

variable {graph : GraphView} {cap : Option Nat} {width : Int} {histogram : CycleHistogram}

-- A search that records the temporal events, and stops where a window overflows.
structure RecordsEvents (graph : GraphView) (width : Int) (cap : Option Nat)
    (result : Except Error CycleHistogram) : Prop where
  records : NoWindowOverflow graph width →
    result = (∅ : CycleHistogram).record (temporal_events graph width cap)
  overflows : ¬NoWindowOverflow graph width → ∃ what, result = .error (.overflow_error what)

namespace RecordsEvents

variable {result : Except Error CycleHistogram} (h : RecordsEvents graph width cap result)

include h

theorem throws : Throws
    (fun histogram => (∅ : CycleHistogram).record (temporal_events graph width cap) = .ok histogram)
    result := by
  by_cases hno : NoWindowOverflow graph width
  · rw [h.records hno]
    exact record_throws _
  · obtain ⟨what, hwhat⟩ := h.overflows hno
    rw [hwhat]
    trivial

theorem eq_ok_iff : result = .ok histogram ↔ NoWindowOverflow graph width ∧
    (∅ : CycleHistogram).record (temporal_events graph width cap) = .ok histogram := by
  by_cases hno : NoWindowOverflow graph width
  · rw [h.records hno, and_iff_right hno]
  · obtain ⟨what, hwhat⟩ := h.overflows hno
    rw [hwhat]
    exact iff_of_false (by simp) fun hall => hno hall.1

end RecordsEvents

-- What the searches come to whose results are the events of a mode: the events in a
-- histogram, or an exception where a window or a count overflows.
section Temporal

variable (hw : graph.WellFormed) (h0 : 0 ≤ width) (hcap : ∀ limit ∈ cap, 2 ≤ limit)

include hw h0 hcap

theorem count_temporal_cycles_bruteforce_records :
    RecordsEvents graph width cap (count_temporal_cycles_bruteforce graph width cap) where
  records hno := count_temporal_cycles_bruteforce_eq hw h0 hno hcap
  overflows hover := count_temporal_cycles_bruteforce_overflows (.of_well_formed hw) h0 hover hcap

variable (hmax : width ≤ MAX_TIMESTAMP)

include hmax

theorem count_temporal_cycles_read_tarjan_records :
    RecordsEvents graph width cap (count_temporal_cycles_read_tarjan graph width cap) where
  records hno := count_temporal_cycles_read_tarjan_eq hw h0 hmax hno hcap
  overflows hover :=
    count_temporal_cycles_read_tarjan_overflows (.of_well_formed hw) h0 hover hcap hmax

theorem count_temporal_cycles_johnson_throws :
    Throws (fun histogram => (∅ : CycleHistogram).record (temporal_events graph width cap) = .ok histogram)
      (count_temporal_cycles_johnson graph width cap) := by
  by_cases hno : NoWindowOverflow graph width
  · rcases count_temporal_cycles_johnson_gives hw h0 hmax hno hcap with ⟨what, -, hwhat⟩ | heq
    · rw [hwhat]
      trivial
    · rw [heq]
      exact record_throws _
  · obtain ⟨what, hwhat⟩ :=
      count_temporal_cycles_johnson_overflows (.of_well_formed hw) h0 hno hcap hmax
    rw [hwhat]
    trivial

-- The bundles count paths that may never close, and their numbers must fit too.
theorem count_temporal_cycles_johnson_eq_ok_iff :
    count_temporal_cycles_johnson graph width cap = .ok histogram ↔
      (NoWindowOverflow graph width ∧ PartialWaysFit graph width cap) ∧
        (∅ : CycleHistogram).record (temporal_events graph width cap) = .ok histogram := by
  have hends := count_temporal_cycles_johnson_ok_iff hw h0 hmax hcap
  have hways : NoWindowOverflow graph width →
      (∅ : CycleHistogram).record (temporal_events graph width cap) = .ok histogram →
        (PathsFit graph width cap ↔ PartialWaysFit graph width cap) := by
    intro hno hrecord
    refine paths_fit_iff hw hno fun k => ?_
    have hfit := CycleHistogram.fits_of_record (temporal_events_two_le hw) hrecord k
    rwa [CycleHistogram.count_empty, Nat.zero_add] at hfit
  have hthrows := count_temporal_cycles_johnson_throws hw h0 hcap hmax
  constructor
  · intro hrun
    rw [hrun] at hthrows
    have hpaths := (hends.mp ⟨histogram, hrun⟩).1
    exact ⟨⟨hpaths.no_window_overflow, (hways hpaths.no_window_overflow hthrows).mp hpaths⟩, hthrows⟩
  · rintro ⟨⟨hno, hpartial⟩, hrecord⟩
    obtain ⟨found, hfound⟩ := hends.mpr ⟨(hways hno hrecord).mpr hpartial, histogram, hrecord⟩
    rw [hfound] at hthrows
    rw [hfound, ← hrecord]
    exact hthrows.symm

end Temporal

end CycleEnum.Sequential
