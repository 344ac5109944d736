import CycleEnum.Sequential.BruteforceClosings
import CycleEnum.Enumeration.Timed

namespace CycleEnum.Sequential

open Enumeration

-- The offsets of the timestamps of an edge.
def edge_events (edge : AdjacencyEntry) : List Nat :=
  List.range' edge.timestamp_begin (edge.timestamp_end - edge.timestamp_begin)

def event_graph (graph : GraphView) : EventGraph Nat Nat where
  arcs vertex := (graph.outgoing_row vertex).map fun edge => (edge.vertex, edge_events edge)
  time := timestamp_at graph.timestamps

-- The increment for a closed path and the number of its closing timestamps.
def timed_event (closed : List Nat × Nat) : Nat × Nat := (length_of_size closed.1.length, closed.2)

def temporal_closings (graph : GraphView) (width : Int) (cap : Option Nat) (start : Start) :
    List (List Nat × Nat) :=
  timed_closings (event_graph graph) (start.time graph + width) start.root cap graph.vertex_count
    [start.edge.vertex, start.root] (start.time graph)

def temporal_events (graph : GraphView) (width : Int) (cap : Option Nat) : List (Nat × Nat) :=
  (starts graph).flatMap fun start => (temporal_closings graph width cap start).map timed_event

variable {graph : GraphView} {cap : Option Nat} {width : Int}

theorem event_graph_arcs (graph : GraphView) (v : Nat) : (event_graph graph).arcs v =
    (graph.outgoing_row v).map fun edge => (edge.vertex, edge_events edge) := rfl

theorem event_graph_time (graph : GraphView) (offset : Nat) :
    (event_graph graph).time offset = timestamp_at graph.timestamps offset := rfl

-- Every edge has its timestamps in order in the array of the graph.
def Sliced (graph : GraphView) : Prop :=
  ∀ v, ∀ edge ∈ graph.outgoing_row v, Slice graph.timestamps edge.timestamp_begin edge.timestamp_end

-- The range a temporal search reads off an edge.
theorem timestamps_after_later (hslices : Sliced graph) {v : Nat} {edge : AdjacencyEntry}
    (he : edge ∈ graph.outgoing_row v) (previous window_end : Int) :
    ∃ range, timestamps_after graph.timestamps edge.timestamp_begin edge.timestamp_end previous
        window_end = .ok range ∧
      range.offsets = (event_graph graph).later window_end previous
        (edge_events edge) := by
  obtain ⟨range, hr, ho⟩ := timestamps_after_spec (hslices v edge he) previous window_end
  exact ⟨range, hr, ho⟩

-- The closings over one edge of a row.
def timed_row (graph : GraphView) (cap : Option Nat) (root : Nat) (window_end : Int)
    (fuel v : Nat) (below : List Nat) (previous : Int) (edge : AdjacencyEntry) :
    List (List Nat × Nat) :=
  let events := (event_graph graph).later window_end previous (edge_events edge)
  if events = [] then []
  else if edge.vertex = root then [(v :: below, events.length)]
  else if edge.vertex ∈ v :: below then []
  else if cut cap (v :: below).length then []
  else events.flatMap fun offset =>
    timed_closings (event_graph graph) window_end root cap fuel (edge.vertex :: v :: below)
      (timestamp_at graph.timestamps offset)

theorem timed_closings_row (root : Nat) (window_end : Int) (fuel v : Nat) (below : List Nat)
    (previous : Int) :
    timed_closings (event_graph graph) window_end root cap (fuel + 1) (v :: below) previous =
      (graph.outgoing_row v).flatMap
        (timed_row graph cap root window_end fuel v below previous) := by
  rw [timed_closings, event_graph_arcs, List.flatMap_map]
  rfl

theorem temporal_dfs_emits (cap : Option Nat) (hw : graph.WellFormed) (root : Nat)
    (window_end : Int) (fuel : Nat) (v : Nat) (previous : Int) (below : List Nat)
    (h : OnPath graph root (v :: below))
    (hfuel : graph.vertex_count < (v :: below).length + fuel)
    (hroot : 2 ≤ (v :: below).length) :
    (temporal_dfs graph cap root window_end fuel v previous (PathState.at (v :: below))).Emits
      (PathState.at (v :: below))
      ((timed_closings (event_graph graph) window_end root cap fuel (v :: below) previous).map
        timed_event) := by
  induction fuel generalizing v previous below with
  | zero => have := h.length_le; omega
  | succ fuel ih =>
      rw [timed_closings_row, List.map_flatMap, temporal_dfs]
      refine Search.Emits.foldlM_const fun edge he => ?_
      have hnext := (hw.bounded v edge he).2
      have hpath : (PathState.at (v :: below)).path = v :: below := rfl
      obtain ⟨range, hr, ho⟩ := timestamps_after_later hw.slices he previous window_end
      refine (Search.emits_ofExcept hr).silent ?_
      rw [timed_row, ← ho]
      by_cases hempty : range.offsets = []
      · rw [if_pos ((range.empty_iff).mpr hempty), if_pos hempty]
        exact Search.emits_pure _
      rw [if_neg (fun hc => hempty ((range.empty_iff).mp hc)), if_neg hempty]
      by_cases hr : edge.vertex = root
      · rw [if_pos ⟨hr, hpath ▸ hroot⟩, if_pos hr, ← range.size_eq]
        exact (Search.emits_increment _ _).then (Search.emits_pure _)
      rw [if_neg fun hc => hr hc.1, if_neg hr]
      by_cases hm : edge.vertex ∈ v :: below
      · rw [if_pos (by simpa [PathState.at] using hm), if_pos hm]
        exact Search.emits_pure _
      rw [if_neg (by simpa [PathState.at] using hm), if_neg hm]
      cases hc : cut cap (v :: below).length with
      | true =>
          rw [hpath, if_pos hc, if_pos rfl]
          exact Search.emits_pure _
      | false =>
          rw [if_neg (by rw [hpath, hc]; simp), if_neg (by simp), PathState.push_at, List.map_flatMap]
          have hin := fun time => ih edge.vertex time (v :: below)
            (h.push hm (List.mem_range.mpr hnext))
            (by simp only [List.length_cons] at hfuel ⊢; omega) (by simp)
          have hloop : (range.offsets.foldlM (fun state next_timestamp_offset =>
              temporal_dfs graph cap root window_end fuel edge.vertex
                (timestamp_at graph.timestamps next_timestamp_offset) state)
              (PathState.at (edge.vertex :: v :: below))).Emits _ _ :=
            Search.Emits.foldlM_const fun offset _ => hin (timestamp_at graph.timestamps offset)
          refine hloop.then ?_
          rw [PathState.pop_at hm]
          exact Search.emits_pure _

-- Every closed path of a start event is short enough for its length not to be
-- narrowed.
theorem timed_event_eq (hw : graph.WellFormed) {start : Start} (hs : start ∈ starts graph)
    {closed : List Nat × Nat} (h : closed ∈ temporal_closings graph width cap start) :
    timed_event closed = (closed.1.length, closed.2) ∧ 2 ≤ closed.1.length := by
  obtain ⟨-, hnodup, hsuffix, harcs⟩ := mem_timed_closings _ _ _ _ (on_path_start hw hs).nodup h
  have hrows : ∀ v ∈ closed.1, graph.outgoing_row v ≠ [] := by
    intro v hv
    by_cases hb : v ∈ [start.root]
    · rw [List.mem_singleton.mp hb]
      exact List.ne_nil_of_mem (mem_starts.mp hs).2.1
    · intro hnil
      exact harcs v hv hb (by rw [event_graph_arcs, hnil]; rfl)
  refine ⟨?_, by simpa using hsuffix.length_le⟩
  rw [timed_event, length_of_size_eq (hw.narrow closed.1 hnodup hrows)]

theorem temporal_closings_two_le (hw : graph.WellFormed) {start : Start} (hs : start ∈ starts graph) :
    ∀ event ∈ (temporal_closings graph width cap start).map timed_event, 2 ≤ event.1 := by
  intro event he
  obtain ⟨closed, hc, rfl⟩ := List.mem_map.mp he
  obtain ⟨heq, hle⟩ := timed_event_eq hw hs hc
  rw [heq]
  exact hle

theorem temporal_events_two_le (hw : graph.WellFormed) :
    ∀ event ∈ temporal_events graph width cap, 2 ≤ event.1 := by
  intro event he
  obtain ⟨start, hs, he⟩ := List.mem_flatMap.mp he
  exact temporal_closings_two_le hw hs event he

theorem temporal_start_emits (cap : Option Nat) (hw : graph.WellFormed) (h0 : 0 ≤ width)
    {start : Start} (hs : start ∈ starts graph)
    (hno : start.time graph ≤ MAX_TIMESTAMP - width) :
    Search.Emits (do
      let window_end ← Search.ofExcept (checked_window_end (start.time graph) width)
      let _ ← temporal_dfs graph cap start.root window_end graph.vertex_count start.edge.vertex
        (start.time graph) (PathState.start start.root start.edge.vertex)) ()
      ((temporal_closings graph width cap start).map timed_event) := by
  refine (Search.emits_ofExcept (checked_window_end_ok h0 hno)).silent ?_
  rw [PathState.start_eq]
  exact (temporal_dfs_emits cap hw start.root _ graph.vertex_count start.edge.vertex _ [start.root]
    (on_path_start hw hs) (by simp) (by simp)).then (Search.emits_pure ())

theorem count_temporal_cycles_bruteforce_eq (hw : graph.WellFormed) (h0 : 0 ≤ width)
    (hno : NoWindowOverflow graph width) (hcap : ∀ limit ∈ cap, 2 ≤ limit) :
    count_temporal_cycles_bruteforce graph width cap =
      (∅ : CycleHistogram).record (temporal_events graph width cap) := by
  rw [count_temporal_cycles_bruteforce, validate_max_cycle_length_ok hcap,
    validate_window_width_ok h0]
  exact Search.Emits.histogram (for_each_start_emits hw fun start hs =>
    temporal_start_emits cap hw h0 hs (hno start hs))

end CycleEnum.Sequential
