import CycleEnum.Parallel.Pool

namespace CycleEnum.Cuda

open Parallel

-- The largest `int`.
def INT_MAX : Nat := 2 ^ 31 - 1

-- The arithmetic of `unsigned long long` and `DeviceOffset`.
def wrap (n : Nat) : Nat := n % 2 ^ 64

theorem wrap_eq {n : Nat} (h : n < 2 ^ 64) : wrap n = n := Nat.mod_eq_of_lt h

theorem wrap_add (a b : Nat) : wrap (wrap a + b) = wrap (a + b) := Nat.mod_add_mod a _ b

theorem add_wrap (a b : Nat) : wrap (a + wrap b) = wrap (a + b) := Nat.add_mod_mod a b _

structure Launch where
  block_size : Nat
  grid_blocks : Nat
deriving DecidableEq, Repr

namespace Launch

-- A thread goes by its global id `blockIdx.x * blockDim.x + threadIdx.x`.
def threads (launch : Launch) : Nat := launch.grid_blocks * launch.block_size

def block (launch : Launch) (thread : Nat) : Nat := thread / launch.block_size

def index (launch : Launch) (thread : Nat) : Nat := thread % launch.block_size

-- `index += blockDim.x`. Past `INT_MAX` the index turns negative, which is in no histogram.
def advance (launch : Launch) (index : Nat) : Option Nat :=
  if index + launch.block_size ≤ INT_MAX then some (index + launch.block_size) else none

-- What a device grants a launch at most: 1024 threads in a block, and less than 8 GiB of
-- shared memory for its histogram.
structure Granted (launch : Launch) (max_cycle_length : Nat) : Prop where
  block_size : launch.block_size ≤ 1024
  shared_bytes : (max_cycle_length + 1) * 8 < 2 ^ 33

theorem eq_of_advance {launch : Launch} {index following : Nat}
    (h : launch.advance index = some following) : following = index + launch.block_size := by
  unfold advance at h
  split_ifs at h
  exact (Option.some.inj h).symm

-- No index of a block histogram that is granted leaves the integers.
theorem Granted.advance_eq {launch : Launch} {max_cycle_length : Nat}
    (h : launch.Granted max_cycle_length) {index : Nat} (hle : index ≤ max_cycle_length) :
    launch.advance index = some (index + launch.block_size) := by
  have hblock := h.block_size
  have hshared := h.shared_bytes
  refine if_pos ?_
  unfold INT_MAX
  omega

end Launch

-- Where a thread of a counting kernel stands: in the loop of
-- `clear_block_histogram`, at the barrier behind it, in its own work, at the
-- barrier of `flush_block_histogram`, in the loop behind that, at its end.
inductive Phase (R : Type) where
  | clearing (index : Nat)
  | cleared
  | working (registers : R)
  | worked
  | flushing (index : Nat)
  | finished
deriving DecidableEq, Repr

namespace Phase

variable {R : Type}

def rank : Phase R → Nat
  | clearing _ => 0
  | cleared => 1
  | working _ => 2
  | worked => 3
  | flushing _ => 4
  | finished => 5

-- Whether the thread has cleared, or flushed, a slot that falls to it.
def has_cleared (slot : Nat) : Phase R → Bool
  | clearing index => slot < index
  | _ => true

def has_flushed (slot : Nat) : Phase R → Bool
  | flushing index => slot < index
  | finished => true
  | _ => false

-- The registers of the own work, which is still to come before the first barrier.
def registers (enter : R) : Phase R → Option R
  | clearing _ => some enter
  | cleared => some enter
  | working registers => some registers
  | _ => none

end Phase

-- The own work of a kernel's threads, and the slot of the block histogram that an
-- event of it increments.
structure Kernel (R M E : Type) where
  enter : R
  work : Program R M E
  bin : E → Option Nat

structure Grid (R M : Type) where
  phases : Nat → Phase R
  block_histograms : Nat → Nat → Nat
  histogram : Nat → Nat
  memory : M

namespace Grid

variable {R M E : Type}

-- Shared memory is not initialized, the global histogram is.
def initial (launch : Launch) (block_histograms : Nat → Nat → Nat) (memory : M) : Grid R M :=
  ⟨fun thread => .clearing (launch.index thread), block_histograms, fun _ => 0, memory⟩

def goto (grid : Grid R M) (thread : Nat) (phase : Phase R) : Grid R M :=
  { grid with phases := Function.update grid.phases thread phase }

@[simp] theorem goto_phases (grid : Grid R M) (thread : Nat) (phase : Phase R) :
    (grid.goto thread phase).phases = Function.update grid.phases thread phase := rfl

def Finished (launch : Launch) (grid : Grid R M) : Prop :=
  ∀ thread < launch.threads, grid.phases thread = .finished

-- The threads' own work without the frame around it.
def pool (enter : R) (grid : Grid R M) : Pool R M :=
  ⟨fun thread => (grid.phases thread).registers enter, grid.memory⟩

-- `__syncthreads`: every thread of the block has come to the barrier.
def arrived (launch : Launch) (grid : Grid R M) (thread rank : Nat) : Bool :=
  (List.range launch.block_size).all fun index =>
    rank ≤ (grid.phases (launch.block thread * launch.block_size + index)).rank

end Grid

def increment_block_histogram (block_histogram : Nat → Nat) (cycle_length : Nat) : Nat → Nat :=
  Function.update block_histogram cycle_length (wrap (block_histogram cycle_length + 1))

-- One round of the loop of `flush_block_histogram`.
def flush_slot (histogram block_histogram : Nat → Nat) (index : Nat) : Nat → Nat :=
  let count := block_histogram index
  if count ≠ 0 then Function.update histogram index (wrap (histogram index + count)) else histogram

namespace Kernel

variable {R M E : Type} (kernel : Kernel R M E) (launch : Launch) (max_cycle_length : Nat)

-- What a thread does next, unless it waits at a barrier, has ended, or has no next index.
def step (grid : Grid R M) (thread : Nat) : Option (Grid R M × List E) :=
  let block := launch.block thread
  match grid.phases thread with
  | .clearing index =>
      if index ≤ max_cycle_length then
        (launch.advance index).map fun following =>
          ({ grid.goto thread (.clearing following) with
            block_histograms := Function.update grid.block_histograms block
              (Function.update (grid.block_histograms block) index 0) }, [])
      else some (grid.goto thread .cleared, [])
  | .cleared =>
      if grid.arrived launch thread 1 then some (grid.goto thread (.working kernel.enter), [])
      else none
  | .working registers =>
      let effect := kernel.work thread registers grid.memory
      some ({ grid.goto thread (effect.registers.elim .worked .working) with
        block_histograms := Function.update grid.block_histograms block
          ((effect.events.filterMap kernel.bin).foldl increment_block_histogram
            (grid.block_histograms block))
        memory := effect.memory }, effect.events)
  | .worked =>
      if grid.arrived launch thread 3 then
        some (grid.goto thread (.flushing (launch.index thread)), [])
      else none
  | .flushing index =>
      if index ≤ max_cycle_length then
        (launch.advance index).map fun following =>
          ({ grid.goto thread (.flushing following) with
            histogram := flush_slot grid.histogram (grid.block_histograms block) index }, [])
      else some (grid.goto thread .finished, [])
  | .finished => none

-- The launched threads take their steps in the given order, as far as they can. The
-- second component lists the events, each under its thread.
def run : List Nat → Grid R M → Option (Grid R M × List (Nat × E))
  | [], grid => some (grid, [])
  | thread :: schedule, grid =>
      if thread < launch.threads then
        (kernel.step launch max_cycle_length grid thread).bind fun (next, events) =>
          (run schedule next).map fun (last, trace) => (last, events.map (thread, ·) ++ trace)
      else none

end Kernel

end CycleEnum.Cuda
