import CycleEnum.Cuda.Theorems
import CycleEnum.Cuda.WindowItems

namespace CycleEnum.Cuda

open Parallel
open CycleEnum.Sequential (NoWindowOverflow Parsed admitted closing_event edge_has_timestamp_eq
  count_time_window_cycles_bruteforce count_time_window_cycles_bruteforce_eq mem_starts
  returns_of_toBool sample_parsed sample_rows sample_window simple_cycles starts view_of wide_view
  wide_view_numbers wide_view_parsed wide_view_vertex_count wide_view_window window_closes
  window_closing_event window_closings window_events window_events_two_le window_record_ok_iff
  window_successors)

variable {graph : GraphView} {data : CudaGraphData} {width : Int} {max_cycle_length : Nat}

theorem all_start_events_in_graph (hw : graph.WellFormed) :
    ∀ event ∈ all_start_events graph, event.InGraph graph := by
  intro event he
  rw [all_start_events_eq] at he
  obtain ⟨start, hs, rfl⟩ := List.mem_map.mp he
  obtain ⟨hr, hedge, -⟩ := mem_starts.mp hs
  exact ⟨hr, (hw.bounded _ _ hedge).2, hw.no_loop _ _ hedge⟩

-- Where no window end overflows, the kernel follows the edges that the host follows.
theorem device_admits_eq (hw : graph.WellFormed) (h0 : 0 ≤ width) {event : CudaStartEvent}
    (hfits : event.start_timestamp ≤ MAX_TIMESTAMP - width) {current : Nat} {edge : AdjacencyEntry}
    (he : edge ∈ graph.outgoing_row current) :
    device_admits graph width event current edge =
      admitted graph width event.root event.start_timestamp current edge := by
  have hhost := edge_has_timestamp_eq hw h0 hfits event.root current edge he
  have hdevice : Sequential.edge_has_timestamp graph width event.root event.start_timestamp edge current =
      .ok (device_admits graph width event current edge) :=
    has_timestamp_in_window_eq (hw.slices current edge he) h0 hfits _
  exact Except.ok.inj (hdevice.symm.trans hhost)

theorem window_rows_successors (hw : graph.WellFormed) (h0 : 0 ≤ width) {event : CudaStartEvent}
    (hfits : event.start_timestamp ≤ MAX_TIMESTAMP - width) :
    (window_rows graph width event).successors =
      window_successors graph width event.root event.start_timestamp := by
  funext vertex
  have hfilter : (graph.outgoing_row vertex).filter (device_admits graph width event vertex) =
      (graph.outgoing_row vertex).filter
        (admitted graph width event.root event.start_timestamp vertex) :=
    List.filter_congr fun edge he => device_admits_eq hw h0 hfits he
  rw [window_successors, ← hfilter]
  rfl

theorem flatMap_device_closings (hw : graph.WellFormed) (h0 : 0 ≤ width)
    (hno : NoWindowOverflow graph width) :
    (all_start_events graph).flatMap (device_closings graph width max_cycle_length) =
      (starts graph).flatMap (window_closings graph width (some max_cycle_length)) := by
  rw [all_start_events_eq, List.flatMap_map]
  refine List.flatMap_congr fun start hs => ?_
  rw [device_closings, window_rows_successors hw h0 (hno start hs)]
  rfl

theorem tally_window_events (hw : graph.WellFormed) (slot : Nat) :
    CycleHistogram.tally (window_events graph width (some max_cycle_length)) slot =
      (((starts graph).flatMap (window_closings graph width (some max_cycle_length))).map
        List.length).count slot := by
  have hevents : window_events graph width (some max_cycle_length) =
      (((starts graph).flatMap (window_closings graph width (some max_cycle_length))).map
        List.length).map fun length => (length, 1) := by
    rw [window_events, List.map_map, List.map_flatMap]
    refine List.flatMap_congr fun start hs => List.map_congr_left fun closed hc => ?_
    exact (window_closing_event hw hs hc).1
  rw [hevents, CycleHistogram.tally_map_one]

theorem window_events_le (hw : graph.WellFormed) (hmax : 2 ≤ max_cycle_length) :
    ∀ event ∈ window_events graph width (some max_cycle_length), event.1 ≤ max_cycle_length := by
  intro event he
  obtain ⟨start, hs, he⟩ := List.mem_flatMap.mp he
  obtain ⟨closed, hc, rfl⟩ := List.mem_map.mp he
  rw [(window_closing_event hw hs hc).1]
  rcases (window_closes hw hs hc).capped with rfl | hle
  · exact hmax
  · exact hle max_cycle_length rfl

-- What all threads have pending at the launch.
theorem window_pending_total {start_events : List CudaStartEvent} {threads : Nat}
    (hall : start_events.length ≤ threads) (arrays : Stacks) (slot : Nat) :
    Pool.total threads (fun thread register arrays =>
        (window_pending graph start_events width max_cycle_length thread register arrays).count slot)
      (⟨fun _ => some .asking, arrays⟩ : Pool WindowRegister Stacks) =
      ((start_events.flatMap (device_closings graph width max_cycle_length)).map
        List.length).count slot := by
  have hterm : ∀ thread ∈ Finset.range threads, (window_pending graph start_events width
      max_cycle_length thread .asking arrays).count slot = start_events[thread]?.elim 0 fun event =>
        ((device_closings graph width max_cycle_length event).map List.length).count slot := by
    intro thread _
    rw [window_pending]
    cases start_events[thread]? with
    | none => rfl
    | some event => rfl
  calc _ = ∑ thread ∈ Finset.range threads, (window_pending graph start_events width
        max_cycle_length thread .asking arrays).count slot := rfl
    _ = (start_events.map fun event =>
        ((device_closings graph width max_cycle_length event).map List.length).count slot).sum := by
      rw [Finset.sum_congr rfl hterm, sum_items hall]
    _ = _ := by
      rw [List.map_flatMap, List.count_flatMap]
      rfl

-- The threads search from all start events, and they end with the counts of the sequential
-- search. Below 2^32 vertices there are such events and such counts.
theorem count_time_window_start_events_kernel_exact (hg : Parsed graph) (h0 : 0 ≤ width)
    (hno : NoWindowOverflow graph width) (hmin : 2 ≤ max_cycle_length)
    (hmax : max_cycle_length ≤ INT_MAX)
    (hfit : ∀ k, CycleHistogram.tally (window_events graph width (some max_cycle_length)) k ≤ MAX_COUNT)
    (hpack : pack_graph_for_cuda graph = .ok data) :
    (∃ start_events histogram, build_start_events graph = .ok start_events ∧
      count_time_window_cycles_bruteforce graph width (some max_cycle_length) = .ok histogram ∧
      (start_events = [] → histogram = ∅) ∧
      ∀ (launch : Launch) (slots : Nat), 0 < launch.threads →
        start_events.length ≤ launch.threads →
        checked_stack_slots start_events.length max_cycle_length "time-window" = .ok slots →
        ∀ block_histograms arrays schedule grid trace,
          (count_time_window_start_events_kernel data start_events width max_cycle_length).run
            launch max_cycle_length schedule (Grid.initial launch block_histograms arrays) =
              some (grid, trace) →
          CountsTo (count_time_window_start_events_kernel data start_events width
            max_cycle_length) launch max_cycle_length histogram grid trace) ↔
    graph.vertex_count < 2 ^ 32 := by
  constructor
  · rintro ⟨start_events, -, hstart, -⟩
    by_contra hcount
    exact build_start_events_endless (Nat.le_of_not_lt hcount) start_events hstart
  intro hids
  have hw := hg.well_formed hids
  have hread := readable_of_parsed hg hids
  obtain ⟨rfl, -⟩ := pack_graph_for_cuda_ok hpack
  obtain ⟨histogram, hrecord⟩ := (window_record_ok_iff hw).mpr hfit
  have hseq := (count_time_window_cycles_bruteforce_eq hw h0 hno
    (by simpa using hmin)).trans hrecord
  refine ⟨_, histogram, build_start_events_eq hids, hseq, fun hnone => ?_, ?_⟩
  · have hstarts : starts graph = [] := by
      rw [all_start_events_eq] at hnone
      exact List.map_eq_nil_iff.mp hnone
    rw [window_events, hstarts] at hrecord
    exact (Except.ok.inj hrecord).symm
  · intro launch slots hpos hall hslots block_histograms arrays schedule grid trace hrun
    have hitems := @window_items graph _ width max_cycle_length launch.threads hread
      (all_start_events_in_graph hw) (checked_stack_slots_ok hslots) hmin
    refine counts_to_of_items hitems (fun _ _ => trivial) hpos hmax (window_events_two_le hw)
      (window_events_le hw hmin) (fun slot => ?_) hrecord hrun
    rw [tally_window_events hw, ← flatMap_device_closings hw h0 hno]
    exact window_pending_total hall arrays slot

-- Four threads for the four start events of the sample.
theorem count_time_window_start_events_kernel_exact_sample :
    ∃ data start_events histogram schedule last trace,
      pack_graph_for_cuda (view_of sample_rows) = .ok data ∧
      build_start_events (view_of sample_rows) = .ok start_events ∧
      count_time_window_cycles_bruteforce (view_of sample_rows) 10 (some 3) = .ok histogram ∧
      (count_time_window_start_events_kernel data start_events 10 3).run ⟨2, 2⟩ 3 schedule
        (Grid.initial ⟨2, 2⟩ (fun _ _ => 7) ⟨fun _ => 5, fun _ => 9⟩) = some (last, trace) ∧
      read_histogram 3 last.histogram = .ok histogram := by
  have hrecord : ((∅ : CycleHistogram).record
      (window_events (view_of sample_rows) 10 (some 3))).toBool = true := by decide +kernel
  have hfit := (window_record_ok_iff (sample_parsed.well_formed (by decide))).mp
    (returns_of_toBool hrecord)
  obtain ⟨start_events, histogram, hstart, hseq, -, hall⟩ :=
    (@count_time_window_start_events_kernel_exact (view_of sample_rows)
      (packed (view_of sample_rows)) 10 3 sample_parsed (by decide) sample_window (by decide)
      (by decide) hfit rfl).mpr (by decide)
  obtain rfl := Except.ok.inj ((build_start_events_eq (by decide)).symm.trans hstart)
  have hruns := hall ⟨2, 2⟩ 12 (by decide) (by decide) rfl (fun _ _ => 7) ⟨fun _ => 5, fun _ => 9⟩
  obtain ⟨schedule, last, trace, hrun, hdone⟩ := (hruns [] _ [] rfl).completes
    ⟨by decide, by decide⟩
  exact ⟨_, _, histogram, schedule, last, trace, rfl, hstart, hseq, hrun,
    (hruns schedule last trace hrun).reads hdone⟩

-- Neither the loop for the start events nor the sequential search comes to an end.
theorem count_time_window_start_events_kernel_wide :
    Parsed wide_view ∧ pack_graph_for_cuda wide_view = .ok (packed wide_view) ∧
      NoWindowOverflow wide_view 0 ∧ (∀ k, 2 ≤ k → (simple_cycles wide_view k).ncard = 0) ∧
      (∀ start_events, build_start_events wide_view ≠ .ok start_events) ∧
      ∀ histogram, count_time_window_cycles_bruteforce wide_view 0 (some 2) ≠ .ok histogram :=
  ⟨wide_view_parsed, wide_view_packs, wide_view_window, fun _ hk => wide_view_numbers hk,
    build_start_events_endless wide_view_vertex_count.ge,
    Sequential.count_time_window_cycles_bruteforce_endless wide_view_vertex_count.ge⟩

end CycleEnum.Cuda
