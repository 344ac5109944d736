import CycleEnum.Core.Grouping
import CycleEnum.Sequential.CycleUnion

namespace CycleEnum.Cuda

open CycleEnum.Sequential
open CycleEnum.Enumeration (timed_closings timed_closings_eq_nil)

structure CudaStartEvent where
  root : Nat
  first_vertex : Nat
  start_timestamp : Int
deriving DecidableEq, Repr

-- The start events of one root.
def root_start_events (graph : GraphView) (root : Nat) : List CudaStartEvent :=
  (graph.outgoing_row root).flatMap fun edge =>
    (List.range' edge.timestamp_begin (edge.timestamp_end - edge.timestamp_begin)).map
      fun timestamp_offset => ⟨root, edge.vertex, timestamp_at graph.timestamps timestamp_offset⟩

-- A `VertexId` runs over the roots, so that from 2^32 vertices on the events have no end.
def build_start_events (graph : GraphView) : Except Error (List CudaStartEvent) :=
  for_each_root graph.vertex_count
    (fun events root => .ok (events ++ root_start_events graph root)) []

-- What it builds where it ends.
def all_start_events (graph : GraphView) : List CudaStartEvent :=
  (List.range graph.vertex_count).flatMap (root_start_events graph)

structure StartEventSet where
  events : List CudaStartEvent
  generated : Nat
  dropped_by_cycle_union : Nat
deriving DecidableEq, Repr

-- The loop that keeps the events whose union is not empty.
def filter_start_events (graph : GraphView) (window_width : Int) (all_events : List CudaStartEvent)
    (result : StartEventSet) : Except Error StartEventSet :=
  all_events.foldlM (fun result event => do
    let candidates ← compute_temporal_cycle_union graph
      ⟨event.root, event.first_vertex, event.start_timestamp, window_width⟩
    if candidates.included_count = 0 then
      return { result with dropped_by_cycle_union := result.dropped_by_cycle_union + 1 }
    return { result with events := result.events ++ [event] }) result

def build_temporal_start_events (graph : GraphView) (window_width : Int) (use_cycle_union : Bool) :
    Except Error StartEventSet := do
  if window_width < 0 then
    throw (.invalid_argument "window_width must be non-negative")
  let all_events ← build_start_events graph
  if !use_cycle_union then
    return ⟨all_events, all_events.length, 0⟩
  filter_start_events graph window_width all_events ⟨[], all_events.length, 0⟩

-- The sequential search from the given start events instead of all.
def count_temporal_cycles_from (graph : GraphView) (window_width : Int)
    (max_cycle_length : Option Nat) (start_events : List CudaStartEvent) :
    Except Error CycleHistogram :=
  Search.histogram <| start_events.forM fun event => do
    let window_end ← Search.ofExcept (CycleEnum.checked_window_end event.start_timestamp window_width)
    let _ ← temporal_dfs graph max_cycle_length event.root window_end graph.vertex_count
      event.first_vertex event.start_timestamp (PathState.start event.root event.first_vertex)

variable {graph : GraphView} {width : Int} {cap : Option Nat}

theorem build_start_events_eq (hcount : graph.vertex_count < 2 ^ 32) :
    build_start_events graph = .ok (all_start_events graph) := by
  have hfold : ∀ (roots : List Nat) (events : List CudaStartEvent),
      roots.foldlM (fun events root => (.ok (events ++ root_start_events graph root) :
        Except Error (List CudaStartEvent))) events =
        .ok (events ++ roots.flatMap (root_start_events graph)) := by
    intro roots
    induction roots with
    | nil =>
        intro events
        rw [List.flatMap_nil, List.append_nil]
        rfl
    | cons root roots ih =>
        intro events
        rw [List.foldlM_cons, List.flatMap_cons, ← List.append_assoc]
        exact ih _
  rw [build_start_events, for_each_root_eq hcount, hfold]
  rfl

theorem build_start_events_endless (hcount : 2 ^ 32 ≤ graph.vertex_count)
    (events : List CudaStartEvent) : build_start_events graph ≠ .ok events :=
  for_each_root_endless' hcount _ _ _

theorem build_temporal_start_events_endless (hcount : 2 ^ 32 ≤ graph.vertex_count)
    (start_events : StartEventSet) :
    build_temporal_start_events graph width true ≠ .ok start_events := by
  intro h
  by_cases hwidth : width < 0
  · simp only [build_temporal_start_events, if_pos hwidth] at h
    cases h
  simp only [build_temporal_start_events, if_neg hwidth] at h
  obtain ⟨events, hevents, -⟩ := bind_ok h
  exact build_start_events_endless hcount events hevents

theorem all_start_events_eq (graph : GraphView) : all_start_events graph =
    (starts graph).map fun start => ⟨start.root, start.edge.vertex, start.time graph⟩ := by
  rw [starts, List.map_flatMap]
  refine List.flatMap_congr fun root _ => ?_
  rw [root_start_events, List.map_flatMap]
  refine List.flatMap_congr fun edge _ => ?_
  rw [List.map_map]
  rfl

-- What an event's search may rely on.
structure CudaStartEvent.Valid (graph : GraphView) (width : Int) (event : CudaStartEvent) : Prop where
  root_lt : event.root < graph.vertex_count
  first_lt : event.first_vertex < graph.vertex_count
  no_loop : event.first_vertex ≠ event.root
  fits : event.start_timestamp ≤ MAX_TIMESTAMP - width

theorem all_start_events_valid (hw : graph.WellFormed) (hno : NoWindowOverflow graph width) :
    ∀ event ∈ all_start_events graph, event.Valid graph width := by
  intro event he
  rw [all_start_events_eq] at he
  obtain ⟨start, hs, rfl⟩ := List.mem_map.mp he
  obtain ⟨hr, hedge, -⟩ := mem_starts.mp hs
  exact ⟨hr, (hw.bounded _ _ hedge).2, hw.no_loop _ _ hedge, hno start hs⟩

-- The cycles that begin with an event.
def event_closings (graph : GraphView) (width : Int) (cap : Option Nat) (event : CudaStartEvent) :
    List (List Nat × Nat) :=
  timed_closings (event_graph graph) (event.start_timestamp + width) event.root cap graph.vertex_count
    [event.first_vertex, event.root] event.start_timestamp

-- The first vertex of an event can walk back to the root within the window.
def CudaStartEvent.WalksBack (graph : GraphView) (width : Int) (event : CudaStartEvent) : Prop :=
  EventWalk graph event.start_timestamp (event.start_timestamp + width) event.first_vertex event.root

-- Whether the prefilter keeps an event.
def keeps (graph : GraphView) (width : Int) (event : CudaStartEvent) : Bool :=
  match compute_temporal_cycle_union graph
    ⟨event.root, event.first_vertex, event.start_timestamp, width⟩ with
  | .ok candidates => candidates.included_count ≠ 0
  | .error _ => false

section Prefilter

variable (hg : Linked graph) (h0 : 0 ≤ width)

include hg h0

theorem keeps_spec {event : CudaStartEvent} (hv : event.Valid graph width) :
    ∃ candidates, compute_temporal_cycle_union graph
        ⟨event.root, event.first_vertex, event.start_timestamp, width⟩ = .ok candidates ∧
      keeps graph width event = decide (candidates.included_count ≠ 0) ∧
      (keeps graph width event = true ↔ event.WalksBack graph width) := by
  obtain ⟨candidates, hcompute, -, hmem⟩ := compute_temporal_cycle_union_eq hg
    ⟨event.root, event.first_vertex, event.start_timestamp, width⟩ hv.root_lt hv.first_lt h0 hv.fits
  have hkeeps : keeps graph width event = decide (candidates.included_count ≠ 0) := by
    rw [keeps, hcompute]
  refine ⟨candidates, hcompute, hkeeps, ?_⟩
  have hzero := included_count_eq_zero_iff hv.first_lt hmem
  rw [hkeeps, decide_eq_true_iff, ne_eq, hzero, not_not]
  rfl

theorem filter_start_events_eq {all_events : List CudaStartEvent}
    (hvalid : ∀ event ∈ all_events, event.Valid graph width) (result : StartEventSet) :
    filter_start_events graph width all_events result =
      .ok ⟨result.events ++ all_events.filter (keeps graph width), result.generated,
        result.dropped_by_cycle_union + (all_events.filter fun event => !keeps graph width event).length⟩ := by
  induction all_events generalizing result with
  | nil => simp [filter_start_events, pure, Except.pure]
  | cons event rest ih =>
      obtain ⟨candidates, hcompute, hkeeps, -⟩ := keeps_spec hg h0 (hvalid event List.mem_cons_self)
      have hrest := ih fun event he => hvalid event (List.mem_cons_of_mem _ he)
      unfold filter_start_events at hrest ⊢
      rw [List.foldlM_cons, ok_bind hcompute, List.filter_cons, List.filter_cons, hkeeps]
      by_cases hzero : candidates.included_count = 0
      · rw [if_pos hzero]
        refine (hrest _).trans ?_
        simp [hzero]
        omega
      · rw [if_neg hzero]
        refine (hrest _).trans ?_
        simp [hzero]

-- An event that is dropped begins no cycle.
theorem event_closings_eq_nil {event : CudaStartEvent} (hv : event.Valid graph width)
    (hdrop : keeps graph width event = false) : event_closings graph width cap event = [] := by
  obtain ⟨-, -, -, hwalk⟩ := keeps_spec hg h0 hv
  refine timed_closings_eq_nil (by simpa using hv.no_loop) fun hleads => ?_
  have hkept := hwalk.mpr (EventWalk.of_leads_back hg.outgoing_start (Int.le_refl _) hleads)
  rw [hdrop] at hkept
  cases hkept

end Prefilter

theorem build_temporal_start_events_eq (hw : graph.WellFormed) (hg : Linked graph) (h0 : 0 ≤ width)
    (hno : NoWindowOverflow graph width) :
    build_temporal_start_events graph width true =
      .ok ⟨(all_start_events graph).filter (keeps graph width), (all_start_events graph).length,
        ((all_start_events graph).filter fun event => !keeps graph width event).length⟩ := by
  have hfilter := filter_start_events_eq hg h0 (all_start_events_valid hw hno)
    ⟨[], (all_start_events graph).length, 0⟩
  rw [List.nil_append, Nat.zero_add] at hfilter
  rw [build_temporal_start_events, if_neg (by omega), build_start_events_eq hw.counted]
  exact hfilter

theorem flatMap_event_closings (graph : GraphView) (width : Int) (cap : Option Nat) :
    (all_start_events graph).flatMap (event_closings graph width cap) =
      (starts graph).flatMap (temporal_closings graph width cap) := by
  rw [all_start_events_eq, List.flatMap_map]
  rfl

-- The events that the prefilter keeps begin all the cycles.
theorem flatMap_kept_closings (hw : graph.WellFormed) (hg : Linked graph) (h0 : 0 ≤ width)
    (hno : NoWindowOverflow graph width) :
    ((all_start_events graph).filter (keeps graph width)).flatMap (event_closings graph width cap) =
      (starts graph).flatMap (temporal_closings graph width cap) := by
  have hvalid := all_start_events_valid hw hno
  rw [← flatMap_event_closings]
  generalize all_start_events graph = events at hvalid
  induction events with
  | nil => rfl
  | cons event rest ih =>
      have hrest := ih fun event he => hvalid event (List.mem_cons_of_mem _ he)
      rw [List.filter_cons, List.flatMap_cons]
      cases hk : keeps graph width event with
      | true => rw [if_pos rfl, List.flatMap_cons, hrest]
      | false =>
          rw [if_neg Bool.false_ne_true, hrest,
            event_closings_eq_nil hg h0 (hvalid event List.mem_cons_self) hk, List.nil_append]

-- What the sequential search records from some of the start events.
theorem count_temporal_cycles_from_eq (cap : Option Nat) (hw : graph.WellFormed) (h0 : 0 ≤ width)
    (hno : NoWindowOverflow graph width) {start_events : List CudaStartEvent}
    (hsub : ∀ event ∈ start_events, event ∈ all_start_events graph) :
    count_temporal_cycles_from graph width cap start_events = (∅ : CycleHistogram).record
      ((start_events.flatMap (event_closings graph width cap)).map timed_event) := by
  rw [List.map_flatMap]
  refine Search.Emits.histogram (Search.Emits.forM fun event he => ?_)
  have hall := hsub event he
  rw [all_start_events_eq] at hall
  obtain ⟨start, hs, rfl⟩ := List.mem_map.mp hall
  exact temporal_start_emits cap hw h0 hs (hno start hs)

section Total

variable {source : TemporalGraph} {view : GraphView}

theorem sum_placed (offset id : Nat) (edges : List TemporalEdge) :
    ((placed offset id edges).map fun item => item.2.timestamp_end - item.2.timestamp_begin).sum =
      (edges.flatMap (·.timestamps)).length := by
  induction edges generalizing offset id with
  | nil => rfl
  | cons edge edges ih =>
      rw [placed, List.map_cons, List.sum_cons, ih, List.flatMap_cons, List.length_append]
      simp

-- There is one start event for each timestamp of the graph.
theorem length_all_start_events
    (hends : ∀ edge ∈ source.edges,
      edge.source < source.vertex_count ∧ edge.target < source.vertex_count)
    (h : build_graph_view source = .ok view) (hids : view.vertex_count < 2 ^ 32) :
    (all_start_events view).length = view.timestamp_count := by
  obtain ⟨-, hn, ht, -, hrow⟩ := build_graph_view_ok h
  have hone : ∀ root ∈ List.range source.vertex_count,
      ((view.outgoing_row root).flatMap fun edge =>
        (List.range' edge.timestamp_begin (edge.timestamp_end - edge.timestamp_begin)).map
          fun offset => (⟨root, edge.vertex, timestamp_at view.timestamps offset⟩ :
            CudaStartEvent)).length =
      (((placed 0 0 source.edges).filter (·.1.source = root)).map
        fun item => item.2.timestamp_end - item.2.timestamp_begin).sum := by
    intro root hr
    rw [List.length_flatMap, outgoing_row_eq h hids, hrow, if_pos (List.mem_range.mp hr),
      ((perm_sort_entries _).map _).sum_eq, leaving, List.map_map]
    simp [Function.comp_def]
  have hmem : ∀ item ∈ placed 0 0 source.edges, item.1.source ∈ List.range source.vertex_count :=
    fun item hi => List.mem_range.mpr (hends item.1 (mem_of_mem_placed hi)).1
  unfold all_start_events root_start_events
  rw [List.length_flatMap, hn, List.map_congr_left hone]
  refine (sum_groups List.nodup_range
    (fun item : TemporalEdge × AdjacencyEntry => item.1.source) _ hmem _).trans ?_
  rw [sum_placed, ← ht]
  rfl

end Total

end CycleEnum.Cuda
