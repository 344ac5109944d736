import CycleEnum.Cuda.TemporalItems
import CycleEnum.Cuda.Theorems
import CycleEnum.Sequential.TemporalTheorems
import CycleEnum.Sequential.UnionTheorems

namespace CycleEnum.Cuda

open Parallel
open CycleEnum.Sequential (BeginsWith Linked NoWindowOverflow Parsed TemporalCycle
  count_temporal_cycles_bruteforce count_temporal_cycles_bruteforce_eq
  sample_instances_fit sample_parsed sample_rows sample_window temporal_counts temporal_cycles
  temporal_events_two_le view_of wide_view wide_view_instances wide_view_parsed
  wide_view_vertex_count wide_view_window)

variable {graph : GraphView} {data : CudaGraphData} {width : Int} {max_cycle_length : Nat}

theorem linked_of_parsed (hg : Parsed graph) (hids : graph.vertex_count < 2 ^ 32) :
    Linked graph := ⟨hg.mirrored, hids⟩

-- The prefilter keeps the events whose first vertex can walk back to the root within the
-- window, and the others begin no cycle. From 2^32 vertices on no event is ever built.
theorem build_temporal_start_events_exact (hg : Parsed graph) (h0 : 0 ≤ width)
    (hno : NoWindowOverflow graph width) :
    (∃ all_events start_events, build_start_events graph = .ok all_events ∧
      build_temporal_start_events graph width true = .ok start_events ∧
      (∃ keep : CudaStartEvent → Bool,
        start_events.events = all_events.filter keep ∧
        ∀ event ∈ all_events, keep event = true ↔ event.WalksBack graph width) ∧
      start_events.events.length + start_events.dropped_by_cycle_union = start_events.generated ∧
      start_events.generated = graph.timestamp_count ∧
      (∀ event ∈ all_events, event ∉ start_events.events →
        ∀ vertices events, TemporalCycle graph width vertices events →
          ¬BeginsWith graph event.root event.first_vertex event.start_timestamp vertices events) ∧
      ∀ cap, count_temporal_cycles_from graph width cap start_events.events =
          count_temporal_cycles_from graph width cap all_events ∧
        ((∀ limit ∈ cap, 2 ≤ limit) →
          count_temporal_cycles_from graph width cap start_events.events =
            count_temporal_cycles_bruteforce graph width cap)) ↔
    graph.vertex_count < 2 ^ 32 := by
  constructor
  · rintro ⟨all_events, -, hall, -⟩
    by_contra hcount
    exact build_start_events_endless (Nat.le_of_not_lt hcount) all_events hall
  intro hids
  have hw := hg.well_formed hids
  have hlinked := linked_of_parsed hg hids
  have hvalid := all_start_events_valid hw hno
  have hkeep : ∀ event ∈ all_start_events graph,
      keeps graph width event = true ↔ event.WalksBack graph width := fun event he => by
    obtain ⟨-, -, -, hwalk⟩ := keeps_spec hlinked h0 (hvalid event he)
    exact hwalk
  have hfrom : ∀ cap, count_temporal_cycles_from graph width cap
      ((all_start_events graph).filter (keeps graph width)) =
      (∅ : CycleHistogram).record (Sequential.temporal_events graph width cap) := fun cap => by
    rw [count_temporal_cycles_from_eq cap hw h0 hno fun event he => (List.mem_filter.mp he).1,
      flatMap_kept_closings hw hlinked h0 hno, Sequential.temporal_events, ← List.map_flatMap]
  refine ⟨_, _, build_start_events_eq hids, build_temporal_start_events_eq hw hlinked h0 hno,
    ⟨keeps graph width, rfl, hkeep⟩, ?_, ?_, ?_, fun cap => ⟨?_, fun hcap => ?_⟩⟩
  · exact (List.length_eq_length_filter_add (keeps graph width)).symm
  · obtain ⟨rows, hrows⟩ := hg.rows hids
    exact length_all_start_events (simple_graph_of_rows rows).endpoints hrows hids
  · intro event he hdropped vertices events hcycle hbegin
    refine hdropped (List.mem_filter.mpr ⟨he, (hkeep event he).mpr ?_⟩)
    exact (hcycle.walks hbegin event.root (List.mem_of_mem_head? hbegin.root)).1
  · rw [hfrom, count_temporal_cycles_from_eq cap hw h0 hno fun event he => he,
      flatMap_event_closings, Sequential.temporal_events, ← List.map_flatMap]
  · rw [hfrom, count_temporal_cycles_bruteforce_eq hw h0 hno hcap]

-- Of the four events of the sample three are dropped.
theorem build_temporal_start_events_exact_sample :
    ∃ start_events, build_temporal_start_events (view_of sample_rows) 10 true = .ok start_events ∧
      start_events.events.length + start_events.dropped_by_cycle_union = start_events.generated ∧
      start_events.generated = 4 := by
  obtain ⟨-, start_events, -, hbuild, -, hsum, hgenerated, -⟩ :=
    (build_temporal_start_events_exact sample_parsed (by decide) sample_window).mpr (by decide)
  exact ⟨start_events, hbuild, hsum, hgenerated⟩

-- The loop over the roots does not come to an end, with the prefilter or without it.
theorem build_temporal_start_events_wide :
    Parsed wide_view ∧ NoWindowOverflow wide_view 0 ∧
      (∀ start_events, build_start_events wide_view ≠ .ok start_events) ∧
      ∀ start_events, build_temporal_start_events wide_view 0 true ≠ .ok start_events :=
  ⟨wide_view_parsed, wide_view_window, build_start_events_endless wide_view_vertex_count.ge,
    build_temporal_start_events_endless wide_view_vertex_count.ge⟩

-- The threads search from the start events that the prefilter keeps, and they end with the
-- counts of the sequential search. Below 2^32 vertices there are such events and such counts.
theorem count_temporal_start_events_kernel_exact (hg : Parsed graph) (h0 : 0 ≤ width)
    (hno : NoWindowOverflow graph width) (hmin : 2 ≤ max_cycle_length)
    (hmax : max_cycle_length ≤ INT_MAX)
    (hfit : CycleHistogram.NumbersFit (some max_cycle_length)
      fun k => (temporal_cycles graph width k).ncard)
    (hpack : pack_graph_for_cuda graph = .ok data) :
    (∃ start_events histogram, build_temporal_start_events graph width true = .ok start_events ∧
      count_temporal_cycles_bruteforce graph width (some max_cycle_length) = .ok histogram ∧
      (start_events.events = [] → histogram = ∅) ∧
      ∀ (launch : Launch) (slots : Nat), 0 < launch.threads →
        start_events.events.length ≤ launch.threads →
        checked_stack_slots start_events.events.length max_cycle_length "temporal" = .ok slots →
        ∀ block_histograms arrays schedule grid trace,
          (count_temporal_start_events_kernel data start_events.events width max_cycle_length).run
            launch max_cycle_length schedule (Grid.initial launch block_histograms arrays) =
              some (grid, trace) →
          CountsTo (count_temporal_start_events_kernel data start_events.events width
            max_cycle_length) launch max_cycle_length histogram grid trace) ↔
    graph.vertex_count < 2 ^ 32 := by
  constructor
  · rintro ⟨-, histogram, -, hseq, -⟩
    by_contra hcount
    exact Sequential.count_temporal_cycles_bruteforce_endless (Nat.le_of_not_lt hcount) histogram
      hseq
  intro hids
  have hw := hg.well_formed hids
  have hread := readable_of_parsed hg hids
  have hlinked := linked_of_parsed hg hids
  have hcap : ∀ limit ∈ some max_cycle_length, 2 ≤ limit := by simpa using hmin
  obtain ⟨rfl, -⟩ := pack_graph_for_cuda_ok hpack
  obtain ⟨histogram, hrecord⟩ := (temporal_counts hw h0 hcap).returns hfit
  have hkept : ∀ slot, CycleHistogram.tally
        (Sequential.temporal_events graph width (some max_cycle_length)) slot =
      (timed_lengths (((all_start_events graph).filter (keeps graph width)).flatMap
        (event_closings graph width (some max_cycle_length)))).count slot := fun slot => by
    rw [tally_temporal_events hw, flatMap_kept_closings hw hlinked h0 hno]
  refine ⟨_, histogram, build_temporal_start_events_eq hw hlinked h0 hno,
    (count_temporal_cycles_bruteforce_eq hw h0 hno hcap).trans hrecord, fun hnone => ?_, ?_⟩
  · have hevents : Sequential.temporal_events graph width (some max_cycle_length) = [] := by
      rw [Sequential.temporal_events, ← List.map_flatMap, ← flatMap_kept_closings hw hlinked h0 hno,
        show (all_start_events graph).filter (keeps graph width) = [] from hnone]
      rfl
    rw [hevents] at hrecord
    exact (Except.ok.inj hrecord).symm
  · intro launch slots hpos hall hslots block_histograms arrays schedule grid trace hrun
    have hvalid : ∀ event ∈ (all_start_events graph).filter (keeps graph width),
        event.Valid graph width := fun event he =>
      all_start_events_valid hw hno event (List.mem_filter.mp he).1
    have hitems := @temporal_items graph _ width max_cycle_length launch.threads hread h0 hvalid
      (checked_stack_slots_ok hslots) hmin
    refine counts_to_of_items hitems (fun _ _ => trivial) hpos hmax (temporal_events_two_le hw)
      (temporal_events_le hw hmin) (fun slot => ?_) hrecord hrun
    rw [hkept]
    exact start_pending_total hall arrays slot

-- Two threads for the one start event of the sample that is kept.
theorem count_temporal_start_events_kernel_exact_sample :
    ∃ data start_events histogram schedule last trace,
      pack_graph_for_cuda (view_of sample_rows) = .ok data ∧
      build_temporal_start_events (view_of sample_rows) 10 true = .ok start_events ∧
      count_temporal_cycles_bruteforce (view_of sample_rows) 10 (some 3) = .ok histogram ∧
      (count_temporal_start_events_kernel data start_events.events 10 3).run ⟨2, 1⟩ 3 schedule
        (Grid.initial ⟨2, 1⟩ (fun _ _ => 7) ⟨fun _ => 5, fun _ => 9, fun _ => 1, fun _ => 2,
          fun _ => 3, fun _ => 4⟩) = some (last, trace) ∧
      read_histogram 3 last.histogram = .ok histogram := by
  obtain ⟨start_events, histogram, hstart, hseq, -, hall⟩ :=
    (@count_temporal_start_events_kernel_exact (view_of sample_rows) (packed (view_of sample_rows))
      10 3 sample_parsed (by decide) sample_window (by decide) (by decide)
      (sample_instances_fit _) rfl).mpr (by decide)
  obtain rfl : ⟨[⟨0, 1, 1⟩], 4, 3⟩ = start_events :=
    Except.ok.inj ((show build_temporal_start_events (view_of sample_rows) 10 true = _ from rfl).symm.trans
      hstart)
  have hruns := hall ⟨2, 1⟩ 3 (by decide) (by decide) rfl (fun _ _ => 7) ⟨fun _ => 5, fun _ => 9,
    fun _ => 1, fun _ => 2, fun _ => 3, fun _ => 4⟩
  obtain ⟨schedule, last, trace, hrun, hdone⟩ := (hruns [] _ [] rfl).completes
    ⟨by decide, by decide⟩
  exact ⟨_, _, histogram, schedule, last, trace, rfl, hstart, hseq, hrun,
    (hruns schedule last trace hrun).reads hdone⟩

theorem count_temporal_start_events_kernel_wide :
    Parsed wide_view ∧ pack_graph_for_cuda wide_view = .ok (packed wide_view) ∧
      NoWindowOverflow wide_view 0 ∧ (∀ k, 2 ≤ k → (temporal_cycles wide_view 0 k).ncard = 0) ∧
      (∀ start_events, build_temporal_start_events wide_view 0 true ≠ .ok start_events) ∧
      ∀ histogram, count_temporal_cycles_bruteforce wide_view 0 (some 2) ≠ .ok histogram :=
  ⟨wide_view_parsed, wide_view_packs, wide_view_window, fun _ hk => wide_view_instances hk,
    build_temporal_start_events_endless wide_view_vertex_count.ge,
    Sequential.count_temporal_cycles_bruteforce_endless wide_view_vertex_count.ge⟩

end CycleEnum.Cuda
