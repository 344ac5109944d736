import CycleEnum.Cuda.RootKernels
import CycleEnum.Cuda.Timestamp
import CycleEnum.Cuda.WorkItem

namespace CycleEnum.Cuda

open Parallel

namespace Stacks

-- The root takes the lowest slot, whose cursor is not written.
def start (arrays : Stacks) (graph : CudaGraphData) (base : Nat) (event : CudaStartEvent) : Stacks :=
  let arrays := { arrays with paths := Function.update arrays.paths base event.root }
  arrays.enter graph (wrap (base + 1)) event.first_vertex

-- One round of the loop `while (depth > 1)` of the time-window kernel.
def window_round (arrays : Stacks) (graph : CudaGraphData) (window_width : Int)
    (max_cycle_length base : Nat) (event : CudaStartEvent) (depth : Nat) :
    Nat × Stacks × List Event :=
  let frame := wrap (base + (depth - 1))
  let current := arrays.paths frame
  let last := graph.outgoing_offsets.getD (next_id current) 0
  let slot := arrays.cursors frame
  if slot ≥ last then (depth - 1, arrays, [.accessed frame])
  else
    let arrays := { arrays with cursors := Function.update arrays.cursors frame (slot + 1) }
    let policy := if event.root > current then .Inclusive else .AfterStart
    if !has_timestamp_in_window graph.timestamps (graph.outgoing_timestamp_begin.getD slot 0)
        (graph.outgoing_timestamp_end.getD slot 0) event.start_timestamp window_width policy then
      (depth, arrays, [.accessed frame])
    else
      let next := graph.outgoing_neighbors.getD slot 0
      if next = event.root ∧ depth ≥ 2 then (depth, arrays, [.accessed frame, .counted depth])
      else if depth ≥ max_cycle_length then (depth, arrays, [.accessed frame])
      else if path_contains arrays.paths base depth next then
        (depth, arrays, .accessed frame :: path_slots base depth)
      else
        let next_frame := wrap (base + depth)
        (depth + 1, arrays.enter graph next_frame next,
          .accessed frame :: path_slots base depth ++ [.accessed next_frame])

end Stacks

-- A thread looks at its start event, or searches its cycles.
inductive WindowRegister where
  | asking
  | searching (event : CudaStartEvent) (depth : Nat)
deriving DecidableEq, Repr

-- The kernel with one start event for each thread.
def count_time_window_start_events_work (graph : CudaGraphData) (start_events : List CudaStartEvent)
    (window_width : Int) (max_cycle_length : Nat) : Program WindowRegister Stacks Event :=
  fun thread register arrays =>
    let event_id := thread
    let base := wrap (event_id * max_cycle_length)
    match register with
    | .asking =>
        match start_events[event_id]? with
        | none => ⟨none, arrays, []⟩
        | some event =>
            ⟨some (.searching event 2), arrays.start graph base event,
              [.accessed base, .accessed (wrap (base + 1))]⟩
    | .searching event depth =>
        if depth > 1 then
          let (depth, arrays, events) :=
            arrays.window_round graph window_width max_cycle_length base event depth
          ⟨some (.searching event depth), arrays, events⟩
        else ⟨none, arrays, []⟩

def count_time_window_start_events_kernel (graph : CudaGraphData)
    (start_events : List CudaStartEvent) (window_width : Int) (max_cycle_length : Nat) :
    Kernel WindowRegister Stacks Event :=
  ⟨.asking, count_time_window_start_events_work graph start_events window_width max_cycle_length,
    Event.bin⟩

end CycleEnum.Cuda
