import CycleEnum.Cuda.TemporalSearch
import CycleEnum.Sequential.TemporalClosings

namespace CycleEnum.Cuda

open Parallel
open Enumeration (cut timed_closings)
open CycleEnum.Sequential (OnPath event_graph edge_events timed_row)

-- The length of each cycle, once for every timestamp that closes it.
def timed_lengths (closings : List (List Nat × Nat)) : List Nat :=
  closings.flatMap fun closed => List.replicate closed.2 closed.1.length

-- The lengths of the cycles over one event of an edge that leaves the top of a path.
def event_lengths (graph : GraphView) (max_cycle_length root : Nat) (window_end : Int)
    (path : List Nat) (next offset : Nat) : List Nat :=
  if next = root then [path.length]
  else if next ∈ path then []
  else if cut (some max_cycle_length) path.length then []
  else timed_lengths (timed_closings (event_graph graph) window_end root (some max_cycle_length)
    graph.vertex_count (next :: path) (timestamp_at graph.timestamps offset))

def edge_event_lengths (graph : GraphView) (max_cycle_length root : Nat) (window_end : Int)
    (path : List Nat) (arrival : Int) (edge : AdjacencyEntry) : List Nat :=
  ((event_graph graph).later window_end arrival (edge_events edge)).flatMap
    (event_lengths graph max_cycle_length root window_end path edge.vertex)

-- The lengths of the cycles that open frames still lead to, in the order of the search.
def temporal_pending (graph : GraphView) (max_cycle_length root : Nat) (window_end : Int) :
    List TemporalFrame → List Nat
  | [] => []
  | top :: below =>
      let path := frame_path root (top :: below)
      (List.range' top.timestamp_cursor (top.timestamp_end - top.timestamp_cursor)).flatMap
          (event_lengths graph max_cycle_length root window_end path
            ((packed graph).outgoing_neighbors.getD top.active_edge 0)) ++
        (graph.outgoing_edges.extract top.edge_cursor
            (graph.outgoing_offsets.getD (next_id top.vertex) 0)).flatMap
          (edge_event_lengths graph max_cycle_length root window_end path top.arrival) ++
        temporal_pending graph max_cycle_length root window_end below

-- What is known of the open frames of a search.
structure OpenTemporal (graph : GraphView) (max_cycle_length root : Nat)
    (frames : List TemporalFrame) : Prop where
  nodup : (frame_path root frames).Nodup
  root_lt : root < graph.vertex_count
  inside : ∀ frame ∈ frames, frame.vertex < graph.vertex_count ∧
    graph.outgoing_offsets.getD frame.vertex 0 ≤ frame.edge_cursor ∧
    frame.edge_cursor ≤ graph.outgoing_offsets.getD (next_id frame.vertex) 0
  active : ∀ frame ∈ frames, frame.timestamp_cursor < frame.timestamp_end →
    graph.outgoing_offsets.getD frame.vertex 0 ≤ frame.active_edge ∧
    frame.active_edge < graph.outgoing_offsets.getD (next_id frame.vertex) 0
  short : frames.length < max_cycle_length

-- A bound of the rounds that a frame still takes by itself.
def frame_left (graph : GraphView) (frame : TemporalFrame) : Nat :=
  (graph.outgoing_offsets.getD (next_id frame.vertex) 0 - frame.edge_cursor) *
      (graph.timestamps.length + 1) +
    (frame.timestamp_end - frame.timestamp_cursor)

def frame_most (graph : GraphView) : Nat :=
  graph.outgoing_edges.length * (graph.timestamps.length + 1)

section Pending

variable {graph : GraphView} {max_cycle_length root : Nat} {window_end : Int} {top : TemporalFrame}
  {below : List TemporalFrame}

theorem OpenTemporal.on_path {frames : List TemporalFrame}
    (h : OpenTemporal graph max_cycle_length root frames) :
    OnPath graph root (frame_path root frames) where
  nodup := h.nodup
  mem v hv := by
    rcases List.mem_append.mp hv with hv | hv
    · obtain ⟨frame, hf, rfl⟩ := List.mem_map.mp hv
      exact List.mem_range.mpr (h.inside frame hf).1
    · rw [List.mem_singleton.mp hv]
      exact List.mem_range.mpr h.root_lt
  root_mem := List.mem_append_right _ (List.mem_singleton_self root)

theorem OpenTemporal.pop (h : OpenTemporal graph max_cycle_length root (top :: below)) :
    OpenTemporal graph max_cycle_length root below where
  nodup := (List.nodup_cons.mp h.nodup).2
  root_lt := h.root_lt
  inside frame hf := h.inside frame (List.mem_cons_of_mem _ hf)
  active frame hf := h.active frame (List.mem_cons_of_mem _ hf)
  short := by
    have hshort := h.short
    rw [List.length_cons] at hshort
    omega

-- The top frame moves on within its row.
theorem OpenTemporal.replace (h : OpenTemporal graph max_cycle_length root (top :: below))
    {next : TemporalFrame} (hv : next.vertex = top.vertex)
    (hlow : graph.outgoing_offsets.getD top.vertex 0 ≤ next.edge_cursor)
    (hhigh : next.edge_cursor ≤ graph.outgoing_offsets.getD (next_id top.vertex) 0)
    (hactive : next.timestamp_cursor < next.timestamp_end →
      graph.outgoing_offsets.getD top.vertex 0 ≤ next.active_edge ∧
      next.active_edge < graph.outgoing_offsets.getD (next_id top.vertex) 0) :
    OpenTemporal graph max_cycle_length root (next :: below) where
  nodup := by
    have hpath : frame_path root (next :: below) = frame_path root (top :: below) := by
      simp [frame_path, hv]
    rw [hpath]
    exact h.nodup
  root_lt := h.root_lt
  inside frame hf := by
    rcases List.mem_cons.mp hf with rfl | hf
    · rw [hv]
      exact ⟨(h.inside top List.mem_cons_self).1, hlow, hhigh⟩
    · exact h.inside frame (List.mem_cons_of_mem _ hf)
  active frame hf := by
    rcases List.mem_cons.mp hf with rfl | hf
    · rw [hv]
      exact hactive
    · exact h.active frame (List.mem_cons_of_mem _ hf)
  short := h.short

theorem OpenTemporal.push (hg : Readable graph)
    (h : OpenTemporal graph max_cycle_length root (top :: below)) {next : Nat} {timestamp : Int}
    (hnext : next < graph.vertex_count) (hm : next ∉ frame_path root (top :: below))
    (hroom : below.length + 2 < max_cycle_length) :
    OpenTemporal graph max_cycle_length root
      (.enter (packed graph) next timestamp :: top :: below) where
  nodup := List.nodup_cons.mpr ⟨hm, h.nodup⟩
  root_lt := h.root_lt
  inside frame hf := by
    rcases List.mem_cons.mp hf with rfl | hf
    · exact ⟨hnext, Nat.le_refl _, (hg.offset_le hnext).1⟩
    · exact h.inside frame hf
  active frame hf := by
    rcases List.mem_cons.mp hf with rfl | hf
    · exact fun hlt => absurd hlt (Nat.not_lt_zero _)
    · exact h.active frame hf
  short := by simpa using hroom

theorem timed_lengths_flatMap {α : Type} (as : List α) (f : α → List (List Nat × Nat)) :
    timed_lengths (as.flatMap f) = as.flatMap fun a => timed_lengths (f a) := by
  rw [timed_lengths, List.flatMap_assoc]
  rfl

-- A vertex at the begin of its row leads to all closings of its path.
theorem row_event_lengths (max_cycle_length : Nat) (window_end : Int) (hw : graph.WellFormed) {v : Nat}
    {path : List Nat} (arrival : Int) (h : OnPath graph root (v :: path)) :
    (graph.outgoing_row v).flatMap
        (edge_event_lengths graph max_cycle_length root window_end (v :: path) arrival) =
      timed_lengths (timed_closings (event_graph graph) window_end root (some max_cycle_length)
        graph.vertex_count (v :: path) arrival) := by
  have hverts : ∀ v, ∀ arc ∈ (event_graph graph).arcs v, arc.1 ∈ List.range graph.vertex_count := by
    intro v arc harc
    obtain ⟨edge, he, rfl⟩ := List.mem_map.mp harc
    exact List.mem_range.mpr (hw.bounded v edge he).2
  have hfuel : timed_closings (event_graph graph) window_end root (some max_cycle_length)
      (graph.vertex_count + 1) (v :: path) arrival =
      timed_closings (event_graph graph) window_end root (some max_cycle_length) graph.vertex_count
        (v :: path) arrival :=
    Enumeration.timed_closings_fuel_eq (List.range graph.vertex_count) hverts graph.vertex_count
      (graph.vertex_count + 1) (v :: path) arrival h.nodup h.mem (by simp) (by omega)
  rw [← hfuel, Sequential.timed_closings_row, timed_lengths_flatMap]
  refine List.flatMap_congr fun edge _ => ?_
  rw [edge_event_lengths, timed_row]
  unfold event_lengths
  generalize (event_graph graph).later window_end arrival (edge_events edge) = events
  by_cases hempty : events = []
  · rw [if_pos hempty, hempty]
    rfl
  rw [if_neg hempty]
  by_cases hroot : edge.vertex = root
  · rw [if_pos hroot]
    simp only [if_pos hroot]
    rw [← List.map_eq_flatMap, List.map_const', timed_lengths, List.flatMap_singleton]
  rw [if_neg hroot]
  simp only [if_neg hroot]
  by_cases hmem : edge.vertex ∈ v :: path
  · rw [if_pos hmem]
    simp only [if_pos hmem]
    exact List.flatMap_eq_nil_iff.mpr fun _ _ => rfl
  rw [if_neg hmem]
  simp only [if_neg hmem]
  cases hcut : cut (some max_cycle_length) (v :: path).length with
  | true => exact List.flatMap_eq_nil_iff.mpr fun _ _ => rfl
  | false => exact (timed_lengths_flatMap _ _).symm

theorem frame_left_enter (hg : Readable graph) {next : Nat} (hnext : next < graph.vertex_count)
    (timestamp : Int) : frame_left graph (.enter (packed graph) next timestamp) ≤ frame_most graph := by
  have hle := hg.offset_le hnext
  have hrow : graph.outgoing_offsets.getD (next_id next) 0 - graph.outgoing_offsets.getD next 0 ≤
      graph.outgoing_edges.length := by omega
  exact Nat.mul_le_mul_right _ hrow

-- What a move keeps and how it counts.
structure TemporalMoved (graph : GraphView) (max_cycle_length root : Nat) (window_end : Int)
    (top : TemporalFrame) (below : List TemporalFrame) (move : Move TemporalFrame Nat) : Prop where
  open_frames : OpenTemporal graph max_cycle_length root (move.apply below)
  pending : temporal_pending graph max_cycle_length root window_end (top :: below) =
    move.events ++ temporal_pending graph max_cycle_length root window_end (move.apply below)
  uses : move.Uses (frame_left graph) (frame_most graph) (max_cycle_length - 1) top below

-- A timestamp of the active edge and the ones behind it.
theorem temporal_pending_timestamp (graph : GraphView) (max_cycle_length root : Nat)
    (window_end : Int) {top : TemporalFrame} (below : List TemporalFrame)
    (hc : top.timestamp_cursor < top.timestamp_end) :
    temporal_pending graph max_cycle_length root window_end (top :: below) =
      event_lengths graph max_cycle_length root window_end (frame_path root (top :: below))
          ((packed graph).outgoing_neighbors.getD top.active_edge 0) top.timestamp_cursor ++
        temporal_pending graph max_cycle_length root window_end
          ({ top with timestamp_cursor := top.timestamp_cursor + 1 } :: below) := by
  have hrange : List.range' top.timestamp_cursor (top.timestamp_end - top.timestamp_cursor) =
      top.timestamp_cursor :: List.range' (top.timestamp_cursor + 1)
        (top.timestamp_end - (top.timestamp_cursor + 1)) := by
    rw [← List.range'_succ]
    congr 1
    omega
  rw [temporal_pending, hrange, List.flatMap_cons, temporal_pending]
  simp only [List.append_assoc]
  rfl

-- The timestamps of the active edge go first.
theorem OpenTemporal.timestamp_move (hg : Readable graph)
    (h : OpenTemporal graph max_cycle_length root (top :: below))
    (hc : top.timestamp_cursor < top.timestamp_end) :
    TemporalMoved graph max_cycle_length root window_end top below
      (Cuda.timestamp_move (packed graph) max_cycle_length root top below) := by
  obtain ⟨hv, hlow, hhigh⟩ := h.inside top List.mem_cons_self
  have hlen : (frame_path root (top :: below)).length = below.length + 2 := by
    simp [frame_path]
  have hopen : OpenTemporal graph max_cycle_length root
      ({ top with timestamp_cursor := top.timestamp_cursor + 1 } :: below) :=
    h.replace rfl hlow hhigh fun _ => h.active top List.mem_cons_self hc
  have hleft : frame_left graph { top with timestamp_cursor := top.timestamp_cursor + 1 } <
      frame_left graph top := by
    unfold frame_left
    dsimp only
    omega
  have hpending := temporal_pending_timestamp graph max_cycle_length root window_end below hc
  have hstay : ∀ lengths, event_lengths graph max_cycle_length root window_end
      (frame_path root (top :: below)) ((packed graph).outgoing_neighbors.getD top.active_edge 0)
        top.timestamp_cursor = lengths →
      TemporalMoved graph max_cycle_length root window_end top below
        (.stay { top with timestamp_cursor := top.timestamp_cursor + 1 } lengths) :=
    fun lengths hl => ⟨hopen, by rw [hpending, hl]; rfl, hleft⟩
  have hactive := h.active top List.mem_cons_self hc
  have hnext : (packed graph).outgoing_neighbors.getD top.active_edge 0 < graph.vertex_count := by
    obtain ⟨edge, he, -⟩ := hg.extract_cons hv hactive.2
    have hedge := mem_outgoing_row hactive.1 hactive.2 he
    rw [(packed_slot he).1]
    exact (hg.well_formed.bounded _ edge hedge).2
  rw [Cuda.timestamp_move]
  generalize (packed graph).outgoing_neighbors.getD top.active_edge 0 = next at *
  by_cases hroot : next = root
  · rw [if_pos hroot]
    apply hstay
    rw [event_lengths, if_pos hroot, hlen]
  rw [if_neg hroot]
  by_cases hfull : below.length + 2 ≥ max_cycle_length
  · rw [if_pos hfull]
    apply hstay
    have hcut : cut (some max_cycle_length) (frame_path root (top :: below)).length = true := by
      rw [hlen]
      simpa [cut] using hfull
    rw [event_lengths, if_neg hroot, hcut, if_pos rfl, ite_self]
  rw [if_neg hfull]
  by_cases hmem : next ∈ frame_path root (top :: below)
  · rw [if_pos hmem]
    apply hstay
    rw [event_lengths, if_neg hroot, if_pos hmem]
  rw [if_neg hmem]
  have hcut : cut (some max_cycle_length) (frame_path root (top :: below)).length = false := by
    rw [hlen]
    simpa [cut] using hfull
  refine ⟨hopen.push hg hnext hmem (by omega), ?_, hleft, ?_, by omega⟩
  · -- the new frame leads to all closings behind the event
    have hpath : OnPath graph root (next :: frame_path root (top :: below)) :=
      h.on_path.push hmem (List.mem_range.mpr hnext)
    have hchild := row_event_lengths max_cycle_length window_end hg.well_formed
      (timestamp_at graph.timestamps top.timestamp_cursor) hpath
    rw [hpending, event_lengths, if_neg hroot, if_neg hmem, hcut, if_neg Bool.false_ne_true, ← hchild]
    rfl
  · exact frame_left_enter hg hnext _

-- The range of the timestamps that a thread finds on an edge.
theorem timestamps_after_packed (hg : Readable graph) {v cursor : Nat}
    (hlow : graph.outgoing_offsets.getD v 0 ≤ cursor)
    (hc : cursor < graph.outgoing_offsets.getD (next_id v) 0) {edge : AdjacencyEntry}
    (he : graph.outgoing_edges[cursor]? = some edge) (arrival : Int) {range : CudaTimestampRange}
    (hrange : timestamps_after (packed graph).timestamps
      ((packed graph).outgoing_timestamp_begin.getD cursor 0)
      ((packed graph).outgoing_timestamp_end.getD cursor 0) arrival window_end = range) :
    range.offsets = (event_graph graph).later window_end arrival (edge_events edge) ∧
      range.end_ - range.begin ≤ graph.timestamps.length := by
  have hedge := mem_outgoing_row hlow hc he
  have hslice := hg.well_formed.slices v edge hedge
  obtain ⟨-, hbegin, hend⟩ := packed_slot he
  rw [hbegin, hend] at hrange
  obtain ⟨found, hfound, hoffsets⟩ :=
    Sequential.timestamps_after_later hg.well_formed.slices hedge arrival window_end
  rw [timestamps_after_eq hslice] at hfound
  obtain rfl : range = found := hrange.symm.trans (Except.ok.inj hfound)
  refine ⟨hoffsets, ?_⟩
  have hlen : range.offsets.length = range.end_ - range.begin := List.length_range'
  have hall : (edge_events edge).length = edge.timestamp_end - edge.timestamp_begin :=
    List.length_range'
  have hle : range.offsets.length ≤ (edge_events edge).length := by
    rw [hoffsets]
    exact List.length_filter_le _ _
  have := hslice.le_length
  omega

-- Between its edges a frame takes the next one, or is done.
theorem OpenTemporal.edge_move (hg : Readable graph)
    (h : OpenTemporal graph max_cycle_length root (top :: below))
    (hidle : ¬top.timestamp_cursor < top.timestamp_end) :
    TemporalMoved graph max_cycle_length root window_end top below
      (Cuda.edge_move (packed graph) window_end top) := by
  obtain ⟨hv, hlow, hhigh⟩ := h.inside top List.mem_cons_self
  have hnone : List.range' top.timestamp_cursor (top.timestamp_end - top.timestamp_cursor) = [] := by
    rw [Nat.sub_eq_zero_of_le (by omega)]
    rfl
  unfold Cuda.edge_move
  have hoffsets : (packed graph).outgoing_offsets = graph.outgoing_offsets := rfl
  rw [hoffsets]
  by_cases hlast : top.edge_cursor ≥ graph.outgoing_offsets.getD (next_id top.vertex) 0
  · rw [if_pos hlast]
    refine ⟨h.pop, ?_, trivial⟩
    rw [temporal_pending, hnone, extract_eq_nil _ hlast]
    rfl
  rw [if_neg hlast]
  have hc : top.edge_cursor < graph.outgoing_offsets.getD (next_id top.vertex) 0 :=
    Nat.lt_of_not_le hlast
  obtain ⟨edge, he, hrow⟩ := hg.extract_cons hv hc
  have hnext := (packed_slot he).1
  generalize hrange : timestamps_after (packed graph).timestamps
    ((packed graph).outgoing_timestamp_begin.getD top.edge_cursor 0)
    ((packed graph).outgoing_timestamp_end.getD top.edge_cursor 0) top.arrival window_end = range
  obtain ⟨hevents, hsize⟩ := timestamps_after_packed hg hlow hc he top.arrival hrange
  have hpending : temporal_pending graph max_cycle_length root window_end (top :: below) =
      range.offsets.flatMap (event_lengths graph max_cycle_length root window_end
        (frame_path root (top :: below)) edge.vertex) ++
      ((graph.outgoing_edges.extract (top.edge_cursor + 1)
        (graph.outgoing_offsets.getD (next_id top.vertex) 0)).flatMap (edge_event_lengths graph
          max_cycle_length root window_end (frame_path root (top :: below)) top.arrival) ++
        temporal_pending graph max_cycle_length root window_end below) := by
    rw [temporal_pending, hnone, hrow, List.flatMap_cons, edge_event_lengths, ← hevents]
    simp only [List.flatMap_nil, List.nil_append, List.append_assoc]
  have hrest : graph.outgoing_offsets.getD (next_id top.vertex) 0 - top.edge_cursor =
      graph.outgoing_offsets.getD (next_id top.vertex) 0 - (top.edge_cursor + 1) + 1 := by omega
  dsimp only
  by_cases hempty : range.empty = true
  · rw [if_pos hempty]
    refine ⟨h.replace rfl (by dsimp only; omega) hc fun hlt => absurd hlt hidle, ?_, ?_⟩
    · rw [hpending, range.empty_iff.mp hempty]
      change _ = temporal_pending graph max_cycle_length root window_end
        ({ top with edge_cursor := top.edge_cursor + 1 } :: below)
      rw [temporal_pending, hnone]
      rfl
    · change frame_left graph { top with edge_cursor := top.edge_cursor + 1 } < frame_left graph top
      unfold frame_left
      dsimp only
      rw [hrest, Nat.add_mul]
      omega
  · rw [if_neg hempty]
    refine ⟨h.replace rfl (by dsimp only; omega) hc fun _ => ⟨hlow, hc⟩, ?_, ?_⟩
    · rw [hpending]
      change _ = temporal_pending graph max_cycle_length root window_end
        ({ top with edge_cursor := top.edge_cursor + 1, active_edge := top.edge_cursor
                    timestamp_cursor := range.begin, timestamp_end := range.end_ } :: below)
      rw [temporal_pending, hnext, List.append_assoc]
      rfl
    · change frame_left graph { top with
          edge_cursor := top.edge_cursor + 1, active_edge := top.edge_cursor
          timestamp_cursor := range.begin, timestamp_end := range.end_ } < frame_left graph top
      unfold frame_left
      dsimp only
      rw [hrest, Nat.add_mul]
      omega

theorem OpenTemporal.move (window_end : Int) (hg : Readable graph)
    (h : OpenTemporal graph max_cycle_length root (top :: below)) :
    TemporalMoved graph max_cycle_length root window_end top below
      (temporal_move (packed graph) max_cycle_length root window_end top below) := by
  unfold temporal_move
  split_ifs with hc
  · exact h.timestamp_move hg hc
  · exact h.edge_move hg hc

-- A search starts with the first vertex above the root and leads to all its closings.
theorem open_temporal_start (hg : Readable graph) {width : Int} {event : CudaStartEvent}
    (hv : event.Valid graph width) (hmax : 2 ≤ max_cycle_length) :
    OpenTemporal graph max_cycle_length event.root
        [.enter (packed graph) event.first_vertex event.start_timestamp] ∧
      temporal_pending graph max_cycle_length event.root (event.start_timestamp + width)
          [.enter (packed graph) event.first_vertex event.start_timestamp] =
        timed_lengths (event_closings graph width (some max_cycle_length) event) := by
  have hopen : OpenTemporal graph max_cycle_length event.root
      [.enter (packed graph) event.first_vertex event.start_timestamp] := by
    refine ⟨by simpa [frame_path, TemporalFrame.enter] using hv.no_loop, hv.root_lt, ?_, ?_,
      hmax⟩
    · intro frame hf
      obtain rfl := List.mem_singleton.mp hf
      exact ⟨hv.first_lt, Nat.le_refl _, (hg.offset_le hv.first_lt).1⟩
    · intro frame hf hlt
      obtain rfl := List.mem_singleton.mp hf
      exact absurd hlt (Nat.not_lt_zero _)
  have hrow := row_event_lengths max_cycle_length (event.start_timestamp + width) hg.well_formed
    event.start_timestamp hopen.on_path
  refine ⟨hopen, ?_⟩
  rw [event_closings, temporal_pending, temporal_pending, List.append_nil]
  exact hrow

end Pending

end CycleEnum.Cuda
