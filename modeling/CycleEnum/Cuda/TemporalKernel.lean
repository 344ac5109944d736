import CycleEnum.Cuda.RootKernels
import CycleEnum.Cuda.Timestamp
import CycleEnum.Cuda.WorkItem

namespace CycleEnum.Cuda

open Parallel

-- The six arrays in which each thread has its own slots.
structure TemporalStacks where
  paths : Nat → Nat
  edge_cursors : Nat → Nat
  active_edges : Nat → Nat
  timestamp_cursors : Nat → Nat
  timestamp_ends : Nat → Nat
  arrival_timestamps : Nat → Int

namespace TemporalStacks

-- A vertex goes on the stack, its edge cursor at the begin of its row and no edge active.
def enter (arrays : TemporalStacks) (graph : CudaGraphData) (slot vertex : Nat) (timestamp : Int) :
    TemporalStacks where
  paths := Function.update arrays.paths slot vertex
  edge_cursors := Function.update arrays.edge_cursors slot (graph.outgoing_offsets.getD vertex 0)
  active_edges := Function.update arrays.active_edges slot 0
  timestamp_cursors := Function.update arrays.timestamp_cursors slot 0
  timestamp_ends := Function.update arrays.timestamp_ends slot 0
  arrival_timestamps := Function.update arrays.arrival_timestamps slot timestamp

-- The root takes the lowest slot, of which only the path and the arrival are written.
def start (arrays : TemporalStacks) (graph : CudaGraphData) (base : Nat) (event : CudaStartEvent) :
    TemporalStacks :=
  let arrays := { arrays with
    paths := Function.update arrays.paths base event.root
    arrival_timestamps := Function.update arrays.arrival_timestamps base event.start_timestamp }
  arrays.enter graph (wrap (base + 1)) event.first_vertex event.start_timestamp

-- The next timestamp of the active edge.
def take_timestamp (arrays : TemporalStacks) (graph : CudaGraphData)
    (max_cycle_length base root depth : Nat) : Nat × TemporalStacks × List Event :=
  let frame := wrap (base + (depth - 1))
  let timestamp_offset := arrays.timestamp_cursors frame
  let arrays := { arrays with
    timestamp_cursors := Function.update arrays.timestamp_cursors frame (timestamp_offset + 1) }
  let next_timestamp := timestamp_at graph.timestamps timestamp_offset
  let next := graph.outgoing_neighbors.getD (arrays.active_edges frame) 0
  if next = root ∧ depth ≥ 2 then (depth, arrays, [.accessed frame, .counted depth])
  else if depth ≥ max_cycle_length then (depth, arrays, [.accessed frame])
  else if path_contains arrays.paths base depth next then
    (depth, arrays, .accessed frame :: path_slots base depth)
  else
    let next_frame := wrap (base + depth)
    (depth + 1, arrays.enter graph next_frame next next_timestamp,
      .accessed frame :: path_slots base depth ++ [.accessed next_frame])

-- The next edge, which becomes active if it has timestamps in the window.
def take_edge (arrays : TemporalStacks) (graph : CudaGraphData) (window_end : Int)
    (base depth : Nat) : Nat × TemporalStacks × List Event :=
  let frame := wrap (base + (depth - 1))
  let current := arrays.paths frame
  let edge_end := graph.outgoing_offsets.getD (next_id current) 0
  let edge_offset := arrays.edge_cursors frame
  if edge_offset ≥ edge_end then (depth - 1, arrays, [.accessed frame])
  else
    let arrays := { arrays with
      edge_cursors := Function.update arrays.edge_cursors frame (edge_offset + 1) }
    let range := timestamps_after graph.timestamps (graph.outgoing_timestamp_begin.getD edge_offset 0)
      (graph.outgoing_timestamp_end.getD edge_offset 0) (arrays.arrival_timestamps frame) window_end
    if range.empty then (depth, arrays, [.accessed frame])
    else
      (depth, { arrays with
        active_edges := Function.update arrays.active_edges frame edge_offset
        timestamp_cursors := Function.update arrays.timestamp_cursors frame range.begin
        timestamp_ends := Function.update arrays.timestamp_ends frame range.end_ }, [.accessed frame])

-- One round of the loop `while (depth > 1)`.
def search_round (arrays : TemporalStacks) (graph : CudaGraphData) (max_cycle_length base root : Nat)
    (window_end : Int) (depth : Nat) : Nat × TemporalStacks × List Event :=
  let frame := wrap (base + (depth - 1))
  if arrays.timestamp_cursors frame < arrays.timestamp_ends frame then
    arrays.take_timestamp graph max_cycle_length base root depth
  else arrays.take_edge graph window_end base depth

end TemporalStacks

-- A thread looks at its start event, or searches its cycles.
inductive TemporalRegister where
  | asking
  | searching (root : Nat) (window_end : Int) (depth : Nat)
deriving DecidableEq, Repr

-- The kernel with one start event for each thread.
def count_temporal_start_events_work (graph : CudaGraphData) (start_events : List CudaStartEvent)
    (window_width : Int) (max_cycle_length : Nat) :
    Program TemporalRegister TemporalStacks Event := fun thread register arrays =>
  let event_id := thread
  let base := wrap (event_id * max_cycle_length)
  match register with
  | .asking =>
      match start_events[event_id]? with
      | none => ⟨none, arrays, []⟩
      | some event =>
          match checked_window_end event.start_timestamp window_width with
          | none => ⟨none, arrays, []⟩
          | some window_end =>
              ⟨some (.searching event.root window_end 2), arrays.start graph base event,
                [.accessed base, .accessed (wrap (base + 1))]⟩
  | .searching root window_end depth =>
      if depth > 1 then
        let (depth, arrays, events) :=
          arrays.search_round graph max_cycle_length base root window_end depth
        ⟨some (.searching root window_end depth), arrays, events⟩
      else ⟨none, arrays, []⟩

def count_temporal_start_events_kernel (graph : CudaGraphData) (start_events : List CudaStartEvent)
    (window_width : Int) (max_cycle_length : Nat) : Kernel TemporalRegister TemporalStacks Event :=
  ⟨.asking, count_temporal_start_events_work graph start_events window_width max_cycle_length,
    Event.bin⟩

end CycleEnum.Cuda
