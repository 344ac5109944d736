import CycleEnum.Cuda.StaticHost
import CycleEnum.Core.Stream

namespace CycleEnum.Cuda

open Parallel
open CycleEnum.Sequential (Parsed sample_parsed sample_rows simple_cycles static_tally_eq view_of)

section Environment

inductive StolError where
  | invalid_argument
  | out_of_range
deriving DecidableEq, Repr

-- `std::stol`: behind blanks the longest decimal number, whatever follows it.
def stol (text : List Char) : Except StolError Int :=
  match number_value (take_number (text.dropWhile is_space)).1 with
  | none => .error .invalid_argument
  | some value => if fits_int64 value then .ok value else .error .out_of_range

-- The variables of the process, as `std::getenv` sees them.
abbrev Environment := String → Option (List Char)

-- A number outside the range is thrown and caught as one that is none.
def read_positive_env (environment : Environment) (name : String) (fallback : Nat) :
    Except Error Nat :=
  match environment name with
  | none => .ok fallback
  | some [] => .ok fallback
  | some raw =>
      match stol raw with
      | .error .invalid_argument => .error (.invalid_argument (name ++ " must be a positive integer"))
      | .error .out_of_range => .error (.invalid_argument (name ++ " is out of range"))
      | .ok parsed =>
          if parsed ≤ 0 ∨ parsed > 1000000 then
            .error (.invalid_argument (name ++ " must be a positive integer"))
          else .ok parsed.toNat

structure WorkQueueTuning where
  block_size : Nat
  blocks_per_sm : Nat
deriving DecidableEq, Repr

def work_queue_tuning_from_env (environment : Environment) : Except Error WorkQueueTuning := do
  let block_size ← read_positive_env environment "CYCLE_ENUM_CUDA_BLOCK_SIZE" 128
  let blocks_per_sm ← read_positive_env environment "CYCLE_ENUM_CUDA_BLOCKS_PER_SM" 16
  if block_size % 32 ≠ 0 then
    throw (.invalid_argument "CYCLE_ENUM_CUDA_BLOCK_SIZE must be a multiple of the warp size (32)")
  return ⟨block_size, blocks_per_sm⟩

theorem read_positive_env_range {environment : Environment} {name : String} {fallback value : Nat}
    (hfallback : 0 < fallback ∧ fallback ≤ 1000000)
    (h : read_positive_env environment name fallback = .ok value) : 0 < value ∧ value ≤ 1000000 := by
  unfold read_positive_env at h
  split at h
  · exact Except.ok.inj h ▸ hfallback
  · exact Except.ok.inj h ▸ hfallback
  · split at h
    · cases h
    · cases h
    · split_ifs at h with hrange
      obtain rfl := Except.ok.inj h
      omega

theorem work_queue_tuning_range {environment : Environment} {tuning : WorkQueueTuning}
    (h : work_queue_tuning_from_env environment = .ok tuning) :
    (0 < tuning.block_size ∧ tuning.block_size ≤ 1000000) ∧
      (0 < tuning.blocks_per_sm ∧ tuning.blocks_per_sm ≤ 1000000) ∧ 32 ∣ tuning.block_size := by
  obtain ⟨block_size, hblock, h⟩ := bind_ok h
  obtain ⟨blocks_per_sm, hper, h⟩ := bind_ok h
  by_cases hwarp : block_size % 32 ≠ 0
  · rw [if_pos hwarp] at h
    cases h
  · rw [if_neg hwarp] at h
    obtain rfl := Except.ok.inj h
    exact ⟨read_positive_env_range (by decide) hblock, read_positive_env_range (by decide) hper,
      Nat.dvd_of_mod_eq_zero (not_not.mp hwarp)⟩

end Environment

section Queue

-- The calls that `ScopedCudaTimers` makes where timings are asked for.
inductive TimerCall where
  | create
  | record
  | synchronize
  | elapsed_time
deriving DecidableEq, Repr

def TimerCall.operation : TimerCall → String
  | create => "cudaEventCreate"
  | record => "cudaEventRecord"
  | synchronize => "cudaEventSynchronize"
  | elapsed_time => "cudaEventElapsedTime"

-- What the work queue asks of the runtime besides.
structure QueueRuntime extends CudaRuntime where
  multiprocessor_count : Int
  properties_failure : Int → Option String
  timer_failure : TimerCall → Option String

namespace QueueRuntime

variable (runtime : QueueRuntime)

def get_device_properties (device_id : Int) : Except Error Unit :=
  match runtime.properties_failure device_id with
  | none => .ok ()
  | some text => .error (.runtime_error ("cudaGetDeviceProperties" ++ " failed: " ++ text))

def check_timer (call : TimerCall) : Except Error Unit :=
  match runtime.timer_failure call with
  | none => .ok ()
  | some text => .error (.runtime_error (call.operation ++ " failed: " ++ text))

def time (timed : Bool) (calls : List TimerCall) : Except Error Unit :=
  if timed then calls.forM runtime.check_timer else .ok ()

-- `static_cast<unsigned int>(properties.multiProcessorCount)`
def sm_count : Nat := (runtime.multiprocessor_count % 2 ^ 32).toNat

-- No call fails that the device grants.
structure Works : Prop where
  cuda : runtime.toCudaRuntime.Works
  properties : ∀ device_id, runtime.properties_failure device_id = none
  timers : ∀ call, runtime.timer_failure call = none

end QueueRuntime

variable (runtime : QueueRuntime) (environment : Environment)

-- The grid for the device and for the environment of the process.
def plan_queue (graph : CudaGraphData) (device_id : Int) : Except Error Launch := do
  runtime.make [.set_device device_id]
  runtime.get_device_properties device_id
  let tuning ← work_queue_tuning_from_env environment
  plan_work_queue_launch graph.vertex_count tuning.block_size tuning.blocks_per_sm runtime.sm_count

-- From the uploads to the download. The timers record where they and the kernel begin and end.
def start_queue (timed : Bool) (graph : CudaGraphData) (max_cycle_length : Nat) (launch : Launch) :
    Except Error Unit := do
  runtime.time timed (List.replicate 8 .create ++ [.record, .record])
  runtime.make (upload_graph graph false)
  runtime.time timed [.record]
  runtime.make (device_buffer 8 (max_cycle_length + 1) ++ device_buffer 8 1)
  let total_threads := wrap (launch.grid_blocks * launch.block_size)
  let per_thread_stack ← checked_stack_slots total_threads max_cycle_length "work-queue"
  let _ ← ["path stack", "cursor stack"].mapM (checked_allocation_count per_thread_stack)
  runtime.make (device_buffer 4 per_thread_stack ++ device_buffer 8 per_thread_stack ++
    [.memset (8 * (max_cycle_length + 1)) "clear histogram", .memset 8 "clear work counter"])
  let shared_bytes ← shared_histogram_bytes max_cycle_length
  runtime.time timed [.record]
  runtime.make (launch_kernel "count_roots_queue_kernel" launch shared_bytes)
  runtime.time timed [.record, .record]
  runtime.make (copy_values 8 (max_cycle_length + 1) "copy histogram")
  runtime.time timed
    [.record, .record, .synchronize, .elapsed_time, .elapsed_time, .elapsed_time, .elapsed_time]

def queue_launch (timed : Bool) (graph : CudaGraphData) (device_id : Int) (max_cycle_length : Nat) :
    Except Error (Option Launch) := do
  if graph.vertex_count = 0 ∨ graph.edge_count = 0 then return none
  if max_cycle_length > INT_MAX then
    throw (.overflow_error "max_cycle_length exceeds CUDA kernel limit")
  let launch ← plan_queue runtime environment graph device_id
  if launch.grid_blocks = 0 then return none
  start_queue runtime timed graph max_cycle_length launch
  return some launch

def count_simple_cycles_johnson_queue_device (timed : Bool) (graph : CudaGraphData) (device_id : Int)
    (max_cycle_length : Nat) : Except Error CycleHistogram → Prop :=
  DeviceResult (queue_launch runtime environment timed graph device_id max_cycle_length)
    (count_roots_queue_kernel graph max_cycle_length) (fun memory => memory.work_counter = 0)
    max_cycle_length

-- `timed` is whether the caller passes a place for the timings.
def count_simple_cycles_johnson_work_queue (timed : Bool) (graph : GraphView) (device_id : Int)
    (max_cycle_length : Nat) (result : Except Error CycleHistogram) : Prop :=
  match static_input runtime.toCudaRuntime graph device_id max_cycle_length with
  | .error error => result = .error error
  | .ok data => count_simple_cycles_johnson_queue_device runtime environment timed data device_id
      max_cycle_length result

variable {runtime environment} {timed : Bool} {graph : GraphView} {device_id : Int}
  {max_cycle_length : Nat}

theorem sm_count_lt : runtime.sm_count < 2 ^ 32 := by
  unfold QueueRuntime.sm_count
  omega

-- Of a tuning that is accepted, only a device without multiprocessors makes no plan, and a
-- plan for some items has a block to run.
theorem plan_of_tuning {tuning : WorkQueueTuning}
    (htuning : work_queue_tuning_from_env environment = .ok tuning) {items : Nat} (hitems : items ≠ 0)
    (hids : items < 2 ^ 32) {launch : Launch} :
    plan_work_queue_launch items tuning.block_size tuning.blocks_per_sm runtime.sm_count =
        .ok launch ↔
      runtime.sm_count ≠ 0 ∧
        launch = ⟨tuning.block_size, min (tuning.blocks_per_sm * runtime.sm_count) items⟩ := by
  obtain ⟨hblock, hper, -⟩ := work_queue_tuning_range htuning
  have hsm : runtime.sm_count < 2 ^ 32 := sm_count_lt
  unfold plan_work_queue_launch
  by_cases hnone : runtime.sm_count = 0
  · rw [if_pos (Or.inr (Or.inr hnone))]
    exact iff_of_false (fun h => by cases h) fun h => h.1 hnone
  · rw [if_neg (by omega), if_neg hitems]
    have hresident : tuning.blocks_per_sm * runtime.sm_count < 2 ^ 64 := by
      have := Nat.mul_lt_mul_of_le_of_lt hper.2 hsm (by decide)
      omega
    have hgrid : min (wrap (tuning.blocks_per_sm * runtime.sm_count)) items % 2 ^ 32 =
        min (tuning.blocks_per_sm * runtime.sm_count) items := by
      rw [wrap_eq hresident, Nat.mod_eq_of_lt (by omega)]
    simp only [hgrid, Except.ok.injEq, ne_eq, hnone, not_false_iff, true_and, eq_comm]

theorem planned_threads {tuning : WorkQueueTuning}
    (htuning : work_queue_tuning_from_env environment = .ok tuning) {items : Nat} (hitems : items ≠ 0)
    (hids : items < 2 ^ 32) (hsm : runtime.sm_count ≠ 0) :
    0 < (⟨tuning.block_size, min (tuning.blocks_per_sm * runtime.sm_count) items⟩ : Launch).threads ∧
      (⟨tuning.block_size, min (tuning.blocks_per_sm * runtime.sm_count) items⟩ : Launch).threads <
        2 ^ 64 := by
  obtain ⟨hblock, hper, -⟩ := work_queue_tuning_range htuning
  have hgrid : 0 < min (tuning.blocks_per_sm * runtime.sm_count) items :=
    Nat.lt_min.mpr ⟨Nat.mul_pos hper.1 (Nat.pos_of_ne_zero hsm), Nat.pos_of_ne_zero hitems⟩
  refine ⟨Nat.mul_pos hgrid hblock.1, ?_⟩
  have hle : min (tuning.blocks_per_sm * runtime.sm_count) items * tuning.block_size ≤
      2 ^ 32 * 1000000 :=
    Nat.mul_le_mul (Nat.le_of_lt (Nat.lt_of_le_of_lt (Nat.min_le_right _ _) hids)) hblock.2
  unfold Launch.threads
  dsimp only
  omega

-- What a launch of the queue rests on.
structure QueuePlan (runtime : QueueRuntime) (environment : Environment) (vertex_count : Nat)
    (max_cycle_length : Nat) (launch : Launch) : Prop where
  depth : max_cycle_length ≤ INT_MAX
  tuned : ∃ tuning, work_queue_tuning_from_env environment = .ok tuning ∧
    launch = ⟨tuning.block_size, min (tuning.blocks_per_sm * runtime.sm_count) vertex_count⟩
  multiprocessors : runtime.sm_count ≠ 0
  slots : launch.threads * max_cycle_length ≤ MAX_DEVICE_OFFSET

theorem QueuePlan.fits {vertex_count : Nat} {launch : Launch}
    (h : QueuePlan runtime environment vertex_count max_cycle_length launch)
    (hids : vertex_count < 2 ^ 32) (hmin : 2 ≤ max_cycle_length) :
    launch.threads * max_cycle_length < 2 ^ 64 ∧ vertex_count + launch.threads < 2 ^ 64 := by
  have hslots := h.slots
  have htwo := Nat.mul_le_mul_left launch.threads hmin
  unfold MAX_DEVICE_OFFSET at hslots
  omega

theorem plan_queue_ok {launch : Launch} (hvertices : graph.vertex_count ≠ 0)
    (hids : graph.vertex_count < 2 ^ 32)
    (h : plan_queue runtime environment (packed graph) device_id = .ok launch) :
    runtime.sm_count ≠ 0 ∧ 0 < launch.threads ∧ launch.threads < 2 ^ 64 ∧ launch.grid_blocks ≠ 0 ∧
      ∃ tuning, work_queue_tuning_from_env environment = .ok tuning ∧
        launch = ⟨tuning.block_size, min (tuning.blocks_per_sm * runtime.sm_count) graph.vertex_count⟩ := by
  obtain ⟨_, -, h⟩ := bind_ok h
  obtain ⟨_, -, h⟩ := bind_ok h
  obtain ⟨tuning, htuning, h⟩ := bind_ok h
  obtain ⟨hsm, rfl⟩ := (plan_of_tuning htuning hvertices hids).mp h
  obtain ⟨hpos, hfew⟩ := planned_threads htuning hvertices hids hsm
  exact ⟨hsm, hpos, hfew, Nat.ne_of_gt (Nat.pos_of_mul_pos_right hpos), tuning, htuning, rfl⟩

theorem start_queue_slots {launch : Launch} (hfew : launch.threads < 2 ^ 64)
    (h : start_queue runtime timed (packed graph) max_cycle_length launch = .ok ()) :
    launch.threads * max_cycle_length ≤ MAX_DEVICE_OFFSET := by
  obtain ⟨_, -, h⟩ := bind_ok h
  obtain ⟨_, -, h⟩ := bind_ok h
  obtain ⟨_, -, h⟩ := bind_ok h
  obtain ⟨_, -, h⟩ := bind_ok h
  obtain ⟨slots, hslots, -⟩ := bind_ok h
  have hfits := (checked_stack_slots_eq.mp hslots).1
  rwa [show launch.grid_blocks * launch.block_size = launch.threads from rfl, wrap_eq hfew] at hfits

theorem start_queue_granted {launch : Launch} (hgrants : runtime.Grants)
    (hdepth : max_cycle_length ≤ INT_MAX)
    (h : start_queue runtime timed (packed graph) max_cycle_length launch = .ok ()) :
    launch.Granted max_cycle_length := by
  obtain ⟨_, -, h⟩ := bind_ok h
  obtain ⟨_, -, h⟩ := bind_ok h
  obtain ⟨_, -, h⟩ := bind_ok h
  obtain ⟨_, -, h⟩ := bind_ok h
  obtain ⟨_, -, h⟩ := bind_ok h
  obtain ⟨_, -, h⟩ := bind_ok h
  obtain ⟨_, -, h⟩ := bind_ok h
  rw [ok_bind (shared_histogram_bytes_eq hdepth)] at h
  obtain ⟨_, -, h⟩ := bind_ok h
  obtain ⟨_, hlaunch, -⟩ := bind_ok h
  exact granted_launch_iff.mp (hgrants _ (make_ok_iff.mp hlaunch _ List.mem_cons_self))

theorem queue_launch_ok {launched : Option Launch}
    (h : queue_launch runtime environment timed (packed graph) device_id max_cycle_length =
      .ok launched) :
    ((graph.vertex_count = 0 ∨ graph.edge_count = 0) ∧ launched = none) ∨
      ¬(graph.vertex_count = 0 ∨ graph.edge_count = 0) ∧ max_cycle_length ≤ INT_MAX ∧
        ∃ launch, plan_queue runtime environment (packed graph) device_id = .ok launch ∧
          (launch.grid_blocks = 0 ∧ launched = none ∨ launched = some launch ∧
            start_queue runtime timed (packed graph) max_cycle_length launch = .ok ()) := by
  unfold queue_launch at h
  by_cases hzero : graph.vertex_count = 0 ∨ graph.edge_count = 0
  · rw [if_pos (show (packed graph).vertex_count = 0 ∨ (packed graph).edge_count = 0 from hzero)] at h
    exact Or.inl ⟨hzero, (Except.ok.inj h).symm⟩
  rw [if_neg (show ¬((packed graph).vertex_count = 0 ∨ (packed graph).edge_count = 0) from hzero)] at h
  by_cases hdepth : max_cycle_length > INT_MAX
  · rw [if_pos hdepth] at h
    cases h
  rw [if_neg hdepth] at h
  obtain ⟨launch, hplan, h⟩ := bind_ok h
  refine Or.inr ⟨hzero, Nat.le_of_not_lt hdepth, launch, hplan, ?_⟩
  by_cases hgrid : launch.grid_blocks = 0
  · rw [if_pos hgrid] at h
    exact Or.inl ⟨hgrid, (Except.ok.inj h).symm⟩
  rw [if_neg hgrid] at h
  obtain ⟨_, hstart, h⟩ := bind_ok h
  exact Or.inr ⟨(Except.ok.inj h).symm, hstart⟩

theorem queue_launch_granted {launch : Launch} (hgrants : runtime.Grants)
    (h : queue_launch runtime environment timed (packed graph) device_id max_cycle_length =
      .ok (some launch)) : launch.Granted max_cycle_length := by
  rcases queue_launch_ok h with ⟨-, hnone⟩ | ⟨-, hdepth, planned, -, ⟨-, hnone⟩ | ⟨hsome, hstart⟩⟩
  · cases hnone
  · cases hnone
  · obtain rfl := Option.some.inj hsome
    exact start_queue_granted hgrants hdepth hstart

theorem queue_launch_cases (hids : graph.vertex_count < 2 ^ 32) {launched : Option Launch}
    (h : queue_launch runtime environment timed (packed graph) device_id max_cycle_length =
      .ok launched) :
    ((graph.vertex_count = 0 ∨ graph.edge_count = 0) ∧ launched = none) ∨
      ¬(graph.vertex_count = 0 ∨ graph.edge_count = 0) ∧ ∃ launch, launched = some launch ∧
        QueuePlan runtime environment graph.vertex_count max_cycle_length launch ∧
        0 < launch.threads := by
  rcases queue_launch_ok h with hnone | ⟨hzero, hdepth, launch, hplan, hlaunched⟩
  · exact Or.inl hnone
  obtain ⟨hsm, hpos, hfew, hgrid, htuned⟩ := plan_queue_ok (fun hnone => hzero (Or.inl hnone)) hids hplan
  obtain ⟨hsome, hstart⟩ := hlaunched.resolve_left fun hnone => hgrid hnone.1
  exact Or.inr ⟨hzero, launch, hsome, ⟨hdepth, htuned, hsm, start_queue_slots hfew hstart⟩, hpos⟩

-- Whatever plan is made, every root is searched once.
theorem queue_kernel_counts (hg : Parsed graph) (hids : graph.vertex_count < 2 ^ 32)
    (hmin : 2 ≤ max_cycle_length) :
    KernelCounts (queue_launch runtime environment timed (packed graph) device_id max_cycle_length)
      (count_roots_queue_kernel (packed graph) max_cycle_length)
      (fun memory => memory.work_counter = 0) max_cycle_length
      fun k => (simple_cycles graph k).ncard := by
  have hw := hg.well_formed hids
  intro launch hlaunch
  rcases queue_launch_cases hids hlaunch with ⟨-, hnone⟩ | ⟨-, found, hfound, hplan, hpos⟩
  · cases hnone
  obtain rfl := Option.some.inj hfound
  refine ⟨hplan.depth, hpos, fun memory hcounter block_histograms schedule grid trace hrun hdone k hk
    hle => ?_⟩
  obtain ⟨counter, arrays⟩ := memory
  obtain rfl : counter = 0 := hcounter
  obtain ⟨hfit, hfew⟩ := hplan.fits hids hmin
  have hreach : Reaches (count_roots_queue_work (packed graph) max_cycle_length) launch.threads
      (queue_start arrays) (grid.pool .asking) trace := run_reaches hrun
  have hcounts := (queue_finished (readable_of_parsed hg hids) hfit (by omega) hfew hreach hpos
    (hdone.registers _)).2 k
  have hcap : ∀ limit ∈ some max_cycle_length, k ≤ limit := by simpa using hle
  dsimp only
  rw [← static_tally_eq hw hk hcap, tally_static_events hw]
  exact hcounts

theorem count_simple_cycles_johnson_work_queue_counts (hg : Parsed graph)
    (hids : graph.vertex_count < 2 ^ 32) {histogram : CycleHistogram}
    (h : count_simple_cycles_johnson_work_queue runtime environment timed graph device_id
      max_cycle_length (.ok histogram)) :
    WordCounts max_cycle_length (fun k => (simple_cycles graph k).ncard) histogram := by
  unfold count_simple_cycles_johnson_work_queue at h
  cases hinput : static_input runtime.toCudaRuntime graph device_id max_cycle_length with
  | error error =>
      rw [hinput] at h
      cases h
  | ok data =>
      obtain ⟨rfl, hmin⟩ := static_input_ok hinput
      rw [hinput] at h
      refine DeviceResult.counts h (fun hnone k hk _ => ?_) (queue_kernel_counts hg hids hmin)
      rcases queue_launch_cases hids hnone with ⟨hzero, -⟩ | ⟨-, found, hfound, -⟩
      · rw [simple_cycles_eq_empty (hg.well_formed hids) hzero hk, Set.ncard_empty]
      · cases hfound

section Works

variable (hworks : runtime.Works)

include hworks

theorem QueueRuntime.Works.time (timed : Bool) (calls : List TimerCall) :
    runtime.time timed calls = .ok () := by
  unfold QueueRuntime.time
  split_ifs
  · induction calls with
    | nil => rfl
    | cons call calls ih =>
        have hcall : runtime.check_timer call = .ok () := by
          unfold QueueRuntime.check_timer
          rw [hworks.timers]
        exact (ok_bind hcall).trans ih
  · rfl

theorem start_queue_eq {launch : Launch} (hdepth : max_cycle_length ≤ INT_MAX)
    (hgranted : launch.Granted max_cycle_length)
    (hfew : launch.threads < 2 ^ 64) (hslots : launch.threads * max_cycle_length ≤ MAX_DEVICE_OFFSET) :
    start_queue runtime timed (packed graph) max_cycle_length launch = .ok () := by
  obtain ⟨counts, hcounts⟩ := checked_allocations_eq hslots ["path stack", "cursor stack"]
  have hwrap : wrap (launch.grid_blocks * launch.block_size) = launch.threads := wrap_eq hfew
  have hmake : ∀ calls : List CudaCall, calls.all CudaCall.granted = true →
      runtime.make calls = .ok () := fun _ => make_of_works hworks.cuda
  have hlaunch : (launch_kernel "count_roots_queue_kernel" launch ((max_cycle_length + 1) * 8)).all
      CudaCall.granted = true := by
    have hcall := (@granted_launch_iff launch.grid_blocks launch.block_size max_cycle_length
      "count_roots_queue_kernel launch").mpr hgranted
    simpa [launch_kernel, CudaCall.granted] using hcall
  unfold start_queue
  dsimp only
  rw [hwrap, ok_bind (hworks.time _ _), ok_bind (hmake _ (by simp)), ok_bind (hworks.time _ _),
    ok_bind (hmake _ (by simp)), ok_bind (checked_stack_slots_eq.mpr ⟨hslots, rfl⟩), ok_bind hcounts,
    ok_bind (hmake _ (by simp [CudaCall.granted])), ok_bind (shared_histogram_bytes_eq hdepth),
    ok_bind (hworks.time _ _), ok_bind (hmake _ hlaunch), ok_bind (hworks.time _ _),
    ok_bind (hmake _ (by simp))]
  exact hworks.time _ _

theorem queue_launch_eq {launch : Launch} (hzero : ¬(graph.vertex_count = 0 ∨ graph.edge_count = 0))
    (hids : graph.vertex_count < 2 ^ 32)
    (hplan : QueuePlan runtime environment graph.vertex_count max_cycle_length launch)
    (hgranted : launch.Granted max_cycle_length) :
    queue_launch runtime environment timed (packed graph) device_id max_cycle_length =
      .ok (some launch) := by
  obtain ⟨hdepth, ⟨tuning, htuning, rfl⟩, hsm, hslots⟩ := hplan
  have hvertices : graph.vertex_count ≠ 0 := fun hnone => hzero (Or.inl hnone)
  obtain ⟨hpos, hfew⟩ := planned_threads htuning hvertices hids hsm
  have hproperties : runtime.get_device_properties device_id = .ok () := by
    unfold QueueRuntime.get_device_properties
    rw [hworks.properties]
  have hqueue : plan_queue runtime environment (packed graph) device_id = .ok
      ⟨tuning.block_size, min (tuning.blocks_per_sm * runtime.sm_count) graph.vertex_count⟩ := by
    rw [plan_queue, ok_bind (make_of_works hworks.cuda (by simp [CudaCall.granted])),
      ok_bind hproperties, ok_bind htuning]
    exact (plan_of_tuning htuning hvertices hids).mpr ⟨hsm, rfl⟩
  unfold queue_launch
  rw [if_neg (show ¬((packed graph).vertex_count = 0 ∨ (packed graph).edge_count = 0) from hzero),
    if_neg (Nat.not_lt.mpr hdepth), ok_bind hqueue,
    if_neg (Nat.ne_of_gt (Nat.pos_of_mul_pos_right hpos)),
    ok_bind (start_queue_eq hworks hdepth hgranted hfew hslots)]
  rfl

end Works

-- However the environment tunes the grid and in whatever order its threads draw the roots, a
-- histogram that is returned holds the numbers of the cycles. On a device that works there is
-- one for every tuning that is accepted, whose stacks fit and whose launch is granted.
theorem count_simple_cycles_johnson_work_queue_exact (hg : Parsed graph)
    (hids : graph.vertex_count < 2 ^ 32) (hmin : 2 ≤ max_cycle_length)
    (hdevice : runtime.require_device device_id = .ok ()) {data : CudaGraphData}
    (hpack : pack_graph_for_cuda graph = .ok data) :
    (∀ histogram, count_simple_cycles_johnson_work_queue runtime environment timed graph device_id
        max_cycle_length (.ok histogram) →
      WordCounts max_cycle_length (fun k => (simple_cycles graph k).ncard) histogram ∧
        ∀ sequential, Sequential.count_simple_cycles_johnson graph (some max_cycle_length) =
          .ok sequential → histogram = sequential) ∧
    (runtime.Works → runtime.Grants →
      ((∃ histogram, count_simple_cycles_johnson_work_queue runtime environment timed graph device_id
          max_cycle_length (.ok histogram)) ↔
        (graph.vertex_count = 0 ∨ graph.edge_count = 0) ∨
          ∃ launch, QueuePlan runtime environment graph.vertex_count max_cycle_length launch ∧
            launch.Granted max_cycle_length)) := by
  refine ⟨fun histogram h => ?_, fun hworks hgrants => ?_⟩
  · have hcounts := count_simple_cycles_johnson_work_queue_counts hg hids h
    exact ⟨hcounts, fun sequential => counts_eq_sequential hg hids hmin hcounts⟩
  have hinput := static_input_eq hmin hdevice hpack
  unfold count_simple_cycles_johnson_work_queue
  rw [hinput]
  dsimp only
  constructor
  · intro h
    obtain ⟨histogram, h⟩ := h
    generalize hresult : (Except.ok histogram : Except Error CycleHistogram) = result at h
    cases h with
    | refused _ => cases hresult
    | empty hlaunch =>
        rcases queue_launch_cases hids hlaunch with ⟨hzero, -⟩ | ⟨-, found, hfound, -⟩
        · exact Or.inl hzero
        · cases hfound
    | counted hlaunch _ _ _ =>
        rcases queue_launch_cases hids hlaunch with ⟨hzero, -⟩ | ⟨-, found, hfound, hplan, -⟩
        · exact Or.inl hzero
        · obtain rfl := Option.some.inj hfound
          exact Or.inr ⟨_, hplan, queue_launch_granted hgrants hlaunch⟩
  · intro h
    by_cases hzero : graph.vertex_count = 0 ∨ graph.edge_count = 0
    · exact ⟨∅, .empty (if_pos hzero)⟩
    obtain ⟨launch, hplan, hgranted⟩ := h.resolve_left hzero
    have hlaunch : queue_launch runtime environment timed (packed graph) device_id max_cycle_length =
        .ok (some launch) := queue_launch_eq hworks hzero hids hplan hgranted
    obtain ⟨-, hpos, -⟩ := queue_kernel_counts hg hids hmin launch hlaunch
    obtain ⟨hfit, hfew⟩ := hplan.fits hids hmin
    have hlower : ∀ pool trace, Reaches (count_roots_queue_work (packed graph) max_cycle_length)
        launch.threads (queue_start ⟨fun _ => 0, fun _ => 0⟩) pool trace → ∀ thread < launch.threads,
        ∀ register, pool.registers thread = some register → queue_work graph max_cycle_length
          launch.threads (pool.after thread (count_roots_queue_work (packed graph) max_cycle_length
            thread register pool.memory)) < queue_work graph max_cycle_length launch.threads pool :=
      fun pool trace hr thread ht register hreg =>
        queue_lower (readable_of_parsed hg hids) hfit (by omega) hfew hr ht hreg
    exact exists_device_result hlaunch hplan.depth hpos rfl
      (exists_run hlower hgranted (Grid.initial launch (fun _ _ => 0) ⟨0, fun _ => 0, fun _ => 0⟩) [] .start)

-- Four multiprocessors, and blocks of two warps: what follows the number is ignored.
def small_device : QueueRuntime := ⟨working_runtime, 4, fun _ => none, fun _ => none⟩

def small_blocks : Environment := fun name =>
  if name = "CYCLE_ENUM_CUDA_BLOCK_SIZE" then some " 64 threads".toList else none

theorem count_simple_cycles_johnson_work_queue_exact_sample :
    ∃ histogram, count_simple_cycles_johnson_work_queue small_device small_blocks true
      (view_of sample_rows) 0 3 (.ok histogram) ∧
        Sequential.count_simple_cycles_johnson (view_of sample_rows) (some 3) = .ok histogram := by
  have hexact := @count_simple_cycles_johnson_work_queue_exact small_device small_blocks true
    (view_of sample_rows) 0 3 sample_parsed (by decide) (by decide) rfl _ rfl
  have hplan : QueuePlan small_device small_blocks (view_of sample_rows).vertex_count 3 ⟨64, 3⟩ :=
    ⟨by decide, ⟨⟨64, 16⟩, rfl, rfl⟩, by decide, by decide⟩
  obtain ⟨histogram, h⟩ := (hexact.2 ⟨working_runtime_works, fun _ => rfl, fun _ => rfl⟩
    working_runtime_grants).mpr (Or.inr ⟨_, hplan, by decide, by decide⟩)
  refine ⟨histogram, h, ?_⟩
  rw [(hexact.1 histogram h).2 _ rfl]
  rfl

end Queue

end CycleEnum.Cuda
