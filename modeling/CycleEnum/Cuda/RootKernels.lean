import CycleEnum.Cuda.Graph
import CycleEnum.Core.Histogram

namespace CycleEnum.Cuda

open Parallel

section Host

def plan_work_queue_launch (work_item_count block_size blocks_per_sm sm_count : Nat) :
    Except Error Launch :=
  if block_size = 0 ∨ blocks_per_sm = 0 ∨ sm_count = 0 then
    .error (.invalid_argument "work-queue launch configuration values must be positive")
  else if work_item_count = 0 then .ok ⟨block_size, 0⟩
  else
    let resident := wrap (blocks_per_sm * sm_count)
    let grid := min resident work_item_count
    .ok ⟨block_size, grid % 2 ^ 32⟩

-- The stacks of all threads, `max_cycle_length` slots for each.
def checked_stack_slots (work_count max_cycle_length : Nat) (label : String) : Except Error Nat :=
  if max_cycle_length ≠ 0 ∧ work_count > MAX_DEVICE_OFFSET / max_cycle_length then
    .error (.overflow_error (label ++ " stack exceeds CUDA offset range"))
  else .ok (work_count * max_cycle_length)

def checked_grid_blocks (work_count block_size : Nat) (label : String) : Except Error Nat :=
  let blocks := (work_count + block_size - 1) / block_size
  if blocks > 2 ^ 32 - 1 then .error (.overflow_error (label ++ " exceeds naive CUDA grid capacity"))
  else .ok blocks

-- The host's loop over the downloaded histogram.
def read_histogram (max_cycle_length : Nat) (host_histogram : Nat → Nat) :
    Except Error CycleHistogram :=
  (List.range' 2 (max_cycle_length - 1)).foldlM (fun result length =>
    if host_histogram length = 0 then .ok result
    else result.increment (length_of_size length) (host_histogram length)) ∅

end Host

-- The arrays in which each thread has its own slots for a path and the cursors of its
-- vertices.
structure Stacks where
  paths : Nat → Nat
  cursors : Nat → Nat

-- What the threads do that others could notice: a root is claimed, a slot of the stacks
-- is read or written, a cycle is counted in the block's histogram.
inductive Event where
  | claimed (root : Nat)
  | accessed (slot : Nat)
  | counted (cycle_length : Nat)
deriving DecidableEq, Repr

def Event.bin : Event → Option Nat
  | counted cycle_length => some cycle_length
  | _ => none

def Event.root : Event → Option Nat
  | claimed root => some root
  | _ => none

-- The loop stops at the first hit. The events list the slots up to `depth`.
def path_contains (path : Nat → Nat) (base depth vertex : Nat) : Bool :=
  (List.range depth).any fun index => path (wrap (base + index)) = vertex

def path_slots (base depth : Nat) : List Event :=
  (List.range depth).map fun index => .accessed (wrap (base + index))

namespace Stacks

-- A vertex goes on the stack, its cursor at the begin of its row.
def enter (arrays : Stacks) (graph : CudaGraphData) (slot vertex : Nat) : Stacks where
  paths := Function.update arrays.paths slot vertex
  cursors := Function.update arrays.cursors slot (graph.outgoing_offsets.getD vertex 0)

-- The root of a search is a `DeviceOffset`, of which the stack keeps a `VertexId`.
def enter_root (arrays : Stacks) (graph : CudaGraphData) (slot root : Nat) : Stacks where
  paths := Function.update arrays.paths slot (root % 2 ^ 32)
  cursors := Function.update arrays.cursors slot (graph.outgoing_offsets.getD root 0)

theorem enter_root_eq {root : Nat} (h : root < 2 ^ 32) (arrays : Stacks) (graph : CudaGraphData)
    (slot : Nat) : arrays.enter_root graph slot root = arrays.enter graph slot root := by
  rw [enter_root, Nat.mod_eq_of_lt h]
  rfl

-- One round of the loop `while (depth > 0)`: the new depth, the arrays and the events.
def search_round (arrays : Stacks) (graph : CudaGraphData) (max_cycle_length base root depth : Nat) :
    Nat × Stacks × List Event :=
  let frame := wrap (base + (depth - 1))
  let current := arrays.paths frame
  let last := graph.outgoing_offsets.getD (next_id current) 0
  let cursor := arrays.cursors frame
  if cursor ≥ last then (depth - 1, arrays, [.accessed frame])
  else
    let next := graph.outgoing_neighbors.getD cursor 0
    let arrays := { arrays with cursors := Function.update arrays.cursors frame (cursor + 1) }
    if next = root ∧ depth ≥ 2 then (depth, arrays, [.accessed frame, .counted depth])
    else if next ≤ root ∨ depth ≥ max_cycle_length then (depth, arrays, [.accessed frame])
    else if path_contains arrays.paths base depth next then
      (depth, arrays, .accessed frame :: path_slots base depth)
    else
      let next_frame := wrap (base + depth)
      (depth + 1, arrays.enter graph next_frame next,
        .accessed frame :: path_slots base depth ++ [.accessed next_frame])

end Stacks

-- A thread asks for a root, or searches the cycles of one.
inductive Register where
  | asking
  | searching (root depth : Nat)
deriving DecidableEq, Repr

-- The kernel with one root for each thread.
def count_roots_work (graph : CudaGraphData) (max_cycle_length : Nat) :
    Program Register Stacks Event := fun thread register arrays =>
  let root := thread
  let base := wrap (thread * max_cycle_length)
  match register with
  | .asking =>
      if root < graph.vertex_count then
        ⟨some (.searching root 1), arrays.enter_root graph base root, [.accessed base]⟩
      else ⟨none, arrays, []⟩
  | .searching _ 0 => ⟨none, arrays, []⟩
  | .searching root (depth + 1) =>
      let (depth, arrays, events) := arrays.search_round graph max_cycle_length base root (depth + 1)
      ⟨some (.searching root depth), arrays, events⟩

def count_roots_kernel (graph : CudaGraphData) (max_cycle_length : Nat) :
    Kernel Register Stacks Event :=
  ⟨.asking, count_roots_work graph max_cycle_length, Event.bin⟩

structure QueueMemory where
  work_counter : Nat
  arrays : Stacks

-- The kernel whose threads draw the roots from a counter.
def count_roots_queue_work (graph : CudaGraphData) (max_cycle_length : Nat) :
    Program Register QueueMemory Event := fun thread register memory =>
  let base := wrap (thread * max_cycle_length)
  match register with
  | .asking =>
      let root := memory.work_counter
      let work_counter := wrap (memory.work_counter + 1)
      if root ≥ graph.vertex_count then ⟨none, ⟨work_counter, memory.arrays⟩, []⟩
      else ⟨some (.searching root 1), ⟨work_counter, memory.arrays.enter_root graph base root⟩,
        [.claimed root, .accessed base]⟩
  | .searching _ 0 => ⟨some .asking, memory, []⟩
  | .searching root (depth + 1) =>
      let (depth, arrays, events) :=
        memory.arrays.search_round graph max_cycle_length base root (depth + 1)
      ⟨some (.searching root depth), ⟨memory.work_counter, arrays⟩, events⟩

def count_roots_queue_kernel (graph : CudaGraphData) (max_cycle_length : Nat) :
    Kernel Register QueueMemory Event :=
  ⟨.asking, count_roots_queue_work graph max_cycle_length, Event.bin⟩

section Host

theorem checked_stack_slots_ok {work_count max_cycle_length slots : Nat} {label : String}
    (h : checked_stack_slots work_count max_cycle_length label = .ok slots) :
    work_count * max_cycle_length < 2 ^ 64 := by
  unfold checked_stack_slots at h
  split_ifs at h with hover
  by_cases hzero : max_cycle_length = 0
  · simp [hzero]
  · have hle : work_count ≤ MAX_DEVICE_OFFSET / max_cycle_length := by
      by_contra hgt
      exact hover ⟨hzero, Nat.lt_of_not_le hgt⟩
    have := (Nat.le_div_iff_mul_le (Nat.pos_of_ne_zero hzero)).mp hle
    unfold MAX_DEVICE_OFFSET at this
    omega

end Host

end CycleEnum.Cuda
