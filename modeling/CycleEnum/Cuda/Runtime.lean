import CycleEnum.Cuda.RootKernels

namespace CycleEnum.Cuda

-- The calls of the CUDA runtime that the host functions make, with the operation that an
-- error names.
inductive CudaCall where
  | get_device_count
  | set_device (device_id : Int)
  | malloc (bytes : Nat)
  | memcpy (bytes : Nat) (operation : String)
  | memset (bytes : Nat) (operation : String)
  | launch (blocks block_size shared_bytes : Nat) (operation : String)
  | synchronize (operation : String)
deriving DecidableEq, Repr

def CudaCall.operation : CudaCall → String
  | get_device_count => "cudaGetDeviceCount"
  | set_device _ => "cudaSetDevice"
  | malloc _ => "cudaMalloc"
  | memcpy _ operation => operation
  | memset _ operation => operation
  | launch _ _ _ operation => operation
  | synchronize operation => operation

-- What a device grants at most, for a launch 1024 threads in a block and less than 8 GiB of
-- shared memory.
def CudaCall.granted : CudaCall → Bool
  | launch _ block_size shared_bytes _ => block_size ≤ 1024 && shared_bytes < 2 ^ 33
  | _ => true

-- The devices that the runtime sees, and the error text of a call that fails.
structure CudaRuntime where
  device_count : Nat
  failure : CudaCall → Option String

namespace CudaRuntime

variable (runtime : CudaRuntime)

-- A call that succeeds was granted.
def Grants : Prop := ∀ call, runtime.failure call = none → call.granted

-- No call fails that a device grants.
def Works : Prop := ∀ call, call.granted → runtime.failure call = none

def check_cuda (call : CudaCall) : Except Error Unit :=
  match runtime.failure call with
  | none => .ok ()
  | some text => .error (.runtime_error (call.operation ++ " failed: " ++ text))

-- One call after the other.
def make (calls : List CudaCall) : Except Error Unit := calls.forM runtime.check_cuda

def require_device (device_id : Int) : Except Error Unit := do
  if device_id < 0 then
    throw (.invalid_argument "cuda device id must be non-negative")
  runtime.check_cuda .get_device_count
  if device_id ≥ runtime.device_count then
    throw (.out_of_range ("CUDA device " ++ toString device_id ++ " is not visible"))

end CudaRuntime

-- The constructor of `DeviceBuffer`, and its copies. Empty buffers are not allocated.
def device_buffer (element_size count : Nat) : List CudaCall :=
  if count > 0 then [.malloc (element_size * count)] else []

def copy_values (element_size count : Nat) (operation : String) : List CudaCall :=
  if count = 0 then [] else [.memcpy (element_size * count) operation]

def upload_graph (graph : CudaGraphData) (with_timestamps : Bool) : List CudaCall :=
  device_buffer 8 graph.outgoing_offsets.length ++
    device_buffer 4 graph.outgoing_neighbors.length ++
    device_buffer 8 graph.outgoing_timestamp_begin.length ++
    device_buffer 8 graph.outgoing_timestamp_end.length ++
    copy_values 8 graph.outgoing_offsets.length "copy outgoing offsets" ++
    copy_values 4 graph.outgoing_neighbors.length "copy outgoing neighbors" ++
    copy_values 8 graph.outgoing_timestamp_begin.length "copy outgoing timestamp begin" ++
    copy_values 8 graph.outgoing_timestamp_end.length "copy outgoing timestamp end" ++
    if with_timestamps then
      device_buffer 8 graph.timestamps.length ++ copy_values 8 graph.timestamps.length "copy timestamps"
    else []

def checked_allocation_count (count : Nat) (label : String) : Except Error Nat :=
  if count > 2 ^ 64 - 1 then .error (.overflow_error (label ++ " exceeds host allocation size"))
  else .ok count

def shared_histogram_bytes (max_cycle_length : Nat) : Except Error Nat :=
  if max_cycle_length ≥ (2 ^ 64 - 1) / 8 then
    .error (.overflow_error "shared histogram allocation overflows size_t")
  else .ok ((max_cycle_length + 1) * 8)

section Granted

@[simp] theorem device_buffer_granted (element_size count : Nat) :
    (device_buffer element_size count).all CudaCall.granted = true := by
  unfold device_buffer
  split_ifs <;> rfl

@[simp] theorem copy_values_granted (element_size count : Nat) (operation : String) :
    (copy_values element_size count operation).all CudaCall.granted = true := by
  unfold copy_values
  split_ifs <;> rfl

@[simp] theorem upload_graph_granted (graph : CudaGraphData) (with_timestamps : Bool) :
    (upload_graph graph with_timestamps).all CudaCall.granted = true := by
  unfold upload_graph
  cases with_timestamps <;> simp

-- The device grants a launch with a block histogram for the lengths up to the limit.
theorem granted_launch_iff {blocks block_size max_cycle_length : Nat} {operation : String} :
    (CudaCall.launch blocks block_size ((max_cycle_length + 1) * 8) operation).granted = true ↔
      (⟨block_size, blocks⟩ : Launch).Granted max_cycle_length := by
  rw [CudaCall.granted, Bool.and_eq_true, decide_eq_true_iff, decide_eq_true_iff]
  exact ⟨fun h => ⟨h.1, h.2⟩, fun h => ⟨h.block_size, h.shared_bytes⟩⟩

end Granted

section Checks

variable {runtime : CudaRuntime}

theorem make_ok_iff {calls : List CudaCall} :
    runtime.make calls = .ok () ↔ ∀ call ∈ calls, runtime.failure call = none := by
  induction calls with
  | nil => simp [CudaRuntime.make, pure, Except.pure]
  | cons call calls ih =>
      rw [List.forall_mem_cons, ← ih]
      change (runtime.check_cuda call >>= fun _ => runtime.make calls) = .ok () ↔ _
      cases h : runtime.failure call with
      | none => simp [CudaRuntime.check_cuda, h, bind, Except.bind]
      | some text => simp [CudaRuntime.check_cuda, h, bind, Except.bind]

theorem make_of_works (hworks : runtime.Works) {calls : List CudaCall}
    (hcalls : calls.all CudaCall.granted = true) : runtime.make calls = .ok () :=
  make_ok_iff.mpr fun call hcall => hworks call (List.all_eq_true.mp hcalls call hcall)

-- The first call that fails is the one that the error names.
theorem make_cases (runtime : CudaRuntime) (calls : List CudaCall) :
    runtime.make calls = .ok () ∨ ∃ call ∈ calls, ∃ text, runtime.failure call = some text ∧
      runtime.make calls = .error (.runtime_error (call.operation ++ " failed: " ++ text)) := by
  induction calls with
  | nil => exact Or.inl rfl
  | cons call calls ih =>
      have hmake : runtime.make (call :: calls) =
          runtime.check_cuda call >>= fun _ => runtime.make calls := rfl
      cases hcall : runtime.failure call with
      | some text =>
          refine Or.inr ⟨call, List.mem_cons_self, text, hcall, ?_⟩
          rw [hmake, CudaRuntime.check_cuda, hcall]
          rfl
      | none =>
          have hfine : runtime.check_cuda call = .ok () := by
            rw [CudaRuntime.check_cuda, hcall]
          rw [hmake, ok_bind hfine]
          rcases ih with hok | ⟨failing, hmem, text, hfails, herror⟩
          · exact Or.inl hok
          · exact Or.inr ⟨failing, List.mem_cons_of_mem _ hmem, text, hfails, herror⟩

theorem checked_stack_slots_eq {work_count max_cycle_length slots : Nat} {label : String} :
    checked_stack_slots work_count max_cycle_length label = .ok slots ↔
      work_count * max_cycle_length ≤ MAX_DEVICE_OFFSET ∧ slots = work_count * max_cycle_length := by
  unfold checked_stack_slots
  by_cases hzero : max_cycle_length = 0
  · simp [hzero, eq_comm]
  · have hle := Nat.le_div_iff_mul_le (x := work_count) (y := MAX_DEVICE_OFFSET)
      (Nat.pos_of_ne_zero hzero)
    split_ifs with hover
    · simp only [false_iff]
      intro h
      have := hle.mpr h.1
      omega
    · have hfits : work_count * max_cycle_length ≤ MAX_DEVICE_OFFSET := hle.mp (by omega)
      simp [hfits, eq_comm]

theorem checked_grid_blocks_eq {work_count blocks : Nat} {label : String} :
    checked_grid_blocks work_count 128 label = .ok blocks ↔
      work_count ≤ 128 * (2 ^ 32 - 1) ∧ blocks = (work_count + 127) / 128 := by
  unfold checked_grid_blocks
  dsimp only
  split_ifs with hover
  · simp only [false_iff]
    omega
  · have hfits : work_count ≤ 128 * (2 ^ 32 - 1) := by omega
    simp only [Except.ok.injEq, hfits, true_and, eq_comm]
    rfl

end Checks

end CycleEnum.Cuda
