import CycleEnum.Cuda.DeviceResult
import CycleEnum.Cuda.WindowHost

namespace CycleEnum.Cuda

open Parallel
open CycleEnum.Enumeration (exists_follower exists_mem_of_length_pos chain_iff_follows)
open CycleEnum.Sequential (Arc Parsed sample_parsed sample_rows simple_cycles static_counts
  static_tally_eq view_of)

section Launch

-- The launch of a kernel, and behind it the download of its counts.
def launch_kernel (kernel_name : String) (launch : Launch) (shared_bytes : Nat) : List CudaCall :=
  [.launch launch.grid_blocks launch.block_size shared_bytes (kernel_name ++ " launch"),
    .synchronize (kernel_name ++ " synchronize")]

def kernel_calls (kernel_name : String) (max_cycle_length : Nat) (launch : Launch)
    (shared_bytes : Nat) : List CudaCall :=
  launch_kernel kernel_name launch shared_bytes ++
    copy_values 8 (max_cycle_length + 1) "copy histogram"

-- What the device functions with one thread for each item differ in: the number of the
-- items, the names in their errors, and the calls before and behind the check of the
-- stacks' size.
structure ItemLaunch where
  work_count : Nat
  stack_label : String
  stack_labels : List String
  count_label : String
  kernel_name : String
  uploads : List CudaCall
  buffers : Nat → List CudaCall

def ItemLaunch.launch (plan : ItemLaunch) (runtime : CudaRuntime) (max_cycle_length : Nat) :
    Except Error Launch := do
  runtime.make plan.uploads
  let per_thread_stack ← checked_stack_slots plan.work_count max_cycle_length plan.stack_label
  let _ ← plan.stack_labels.mapM (checked_allocation_count per_thread_stack)
  runtime.make (plan.buffers per_thread_stack)
  let blocks ← checked_grid_blocks plan.work_count 128 plan.count_label
  let shared_bytes ← shared_histogram_bytes max_cycle_length
  runtime.make (kernel_calls plan.kernel_name max_cycle_length ⟨128, blocks⟩ shared_bytes)
  return ⟨128, blocks⟩

-- One thread for each item, in blocks of 128.
def ItemLaunch.planned (plan : ItemLaunch) : Launch := ⟨128, (plan.work_count + 127) / 128⟩

-- The sizes fit and no call fails.
structure ItemLaunch.Possible (plan : ItemLaunch) (runtime : CudaRuntime) (max_cycle_length : Nat) :
    Prop where
  slots : plan.work_count * max_cycle_length ≤ MAX_DEVICE_OFFSET
  blocks : plan.work_count ≤ 128 * (2 ^ 32 - 1)
  calls : ∀ call ∈ plan.uploads ++ (plan.buffers (plan.work_count * max_cycle_length) ++
      kernel_calls plan.kernel_name max_cycle_length plan.planned ((max_cycle_length + 1) * 8)),
    runtime.failure call = none

variable {runtime : CudaRuntime} {max_cycle_length : Nat}

theorem shared_histogram_bytes_eq (h : max_cycle_length ≤ INT_MAX) :
    shared_histogram_bytes max_cycle_length = .ok ((max_cycle_length + 1) * 8) :=
  if_neg (by
    unfold INT_MAX at h
    omega)

-- The stacks that fit the offsets of the device fit the host's sizes.
theorem checked_allocations_eq {slots : Nat} (h : slots ≤ MAX_DEVICE_OFFSET) (labels : List String) :
    ∃ counts, labels.mapM (checked_allocation_count slots) = .ok counts := by
  refine ⟨labels.map fun _ => slots, mapM_eq fun label _ => if_neg ?_⟩
  unfold MAX_DEVICE_OFFSET at h
  omega

theorem ItemLaunch.launch_ok_iff (plan : ItemLaunch) (hdepth : max_cycle_length ≤ INT_MAX)
    {launch : Launch} : plan.launch runtime max_cycle_length = .ok launch ↔
      plan.Possible runtime max_cycle_length ∧ launch = plan.planned := by
  have hshared := shared_histogram_bytes_eq hdepth
  unfold ItemLaunch.launch
  constructor
  · intro h
    obtain ⟨_, huploads, h⟩ := bind_ok h
    obtain ⟨slots, hslots, h⟩ := bind_ok h
    obtain ⟨hfits, rfl⟩ := checked_stack_slots_eq.mp hslots
    obtain ⟨_, -, h⟩ := bind_ok h
    obtain ⟨_, hstacks, h⟩ := bind_ok h
    obtain ⟨blocks, hblocks, h⟩ := bind_ok h
    obtain ⟨hfew, rfl⟩ := checked_grid_blocks_eq.mp hblocks
    rw [ok_bind hshared] at h
    obtain ⟨_, hkernel, h⟩ := bind_ok h
    refine ⟨⟨hfits, hfew, fun call hcall => ?_⟩, (Except.ok.inj h).symm⟩
    rcases List.mem_append.mp hcall with hcall | hcall
    · exact make_ok_iff.mp huploads call hcall
    rcases List.mem_append.mp hcall with hcall | hcall
    · exact make_ok_iff.mp hstacks call hcall
    · exact make_ok_iff.mp hkernel call hcall
  · intro h
    obtain ⟨⟨hfits, hfew, hcalls⟩, rfl⟩ := h
    obtain ⟨counts, hcounts⟩ := checked_allocations_eq hfits plan.stack_labels
    have hkernel : runtime.make (kernel_calls plan.kernel_name max_cycle_length
        ⟨128, (plan.work_count + 127) / 128⟩ ((max_cycle_length + 1) * 8)) = .ok () :=
      make_ok_iff.mpr fun call hcall =>
        hcalls call (List.mem_append_right _ (List.mem_append_right _ hcall))
    rw [ok_bind (make_ok_iff.mpr fun call hcall => hcalls call (List.mem_append_left _ hcall)),
      ok_bind (checked_stack_slots_eq.mpr ⟨hfits, rfl⟩), ok_bind hcounts,
      ok_bind (make_ok_iff.mpr fun call hcall =>
        hcalls call (List.mem_append_right _ (List.mem_append_left _ hcall))),
      ok_bind (checked_grid_blocks_eq.mpr ⟨hfew, rfl⟩), ok_bind hshared, ok_bind hkernel]
    rfl

theorem ItemLaunch.work_count_le (plan : ItemLaunch) : plan.work_count ≤ plan.planned.threads := by
  unfold ItemLaunch.planned Launch.threads
  dsimp only
  omega

theorem ItemLaunch.threads_pos (plan : ItemLaunch) (h : plan.work_count ≠ 0) :
    0 < plan.planned.threads :=
  Nat.lt_of_lt_of_le (Nat.pos_of_ne_zero h) plan.work_count_le

theorem ItemLaunch.Possible.fits {plan : ItemLaunch} (h : plan.Possible runtime max_cycle_length) :
    plan.work_count * max_cycle_length < 2 ^ 64 := by
  have := h.slots
  unfold MAX_DEVICE_OFFSET at this
  omega

theorem ItemLaunch.Possible.granted {plan : ItemLaunch} (hgrants : runtime.Grants)
    (h : plan.Possible runtime max_cycle_length) : plan.planned.Granted max_cycle_length :=
  granted_launch_iff.mp (hgrants _ (h.calls
    (.launch plan.planned.grid_blocks plan.planned.block_size _ (plan.kernel_name ++ " launch"))
    (by simp [kernel_calls, launch_kernel])))

-- A granted launch of items comes to its end.
theorem items_end {R M : Type} {kernel : Kernel R M Event} {launch : Launch}
    {same : Nat → M → M → Prop} {good : Nat → R → M → Prop} {pending : Nat → R → M → List Nat}
    {left : Nat → R → M → Nat}
    (hitems : Items kernel.work launch.threads same good kernel.bin (OwnSlots max_cycle_length)
      pending left) (hgood : ∀ thread memory, good thread kernel.enter memory)
    (hgranted : launch.Granted max_cycle_length) (block_histograms : Nat → Nat → Nat) (memory : M) :
    ∃ schedule grid trace, kernel.run launch max_cycle_length schedule
      (Grid.initial launch block_histograms memory) = some (grid, trace) ∧ grid.Finished launch :=
  @completes_of_items R M _ _ _ _ _ kernel launch hitems hgood hgranted _ memory [] _ [] rfl

end Launch

section Static

variable (runtime : CudaRuntime)

def static_plan (graph : CudaGraphData) (device_id : Int) (max_cycle_length : Nat) : ItemLaunch where
  work_count := graph.vertex_count
  stack_label := "path"
  stack_labels := ["path stack", "cursor stack"]
  count_label := "vertex count"
  kernel_name := "count_roots_kernel"
  uploads := .set_device device_id :: upload_graph graph false ++ device_buffer 8 (max_cycle_length + 1)
  buffers per_thread_stack := device_buffer 4 per_thread_stack ++ device_buffer 8 per_thread_stack ++
    [.memset (8 * (max_cycle_length + 1)) "clear histogram"]

def static_launch (graph : CudaGraphData) (device_id : Int) (max_cycle_length : Nat) :
    Except Error (Option Launch) := do
  if graph.vertex_count = 0 ∨ graph.edge_count = 0 then return none
  if max_cycle_length > INT_MAX then
    throw (.overflow_error "max_cycle_length exceeds CUDA kernel limit")
  return some (← (static_plan graph device_id max_cycle_length).launch runtime max_cycle_length)

def count_simple_cycles_johnson_device (graph : CudaGraphData) (device_id : Int)
    (max_cycle_length : Nat) : Except Error CycleHistogram → Prop :=
  DeviceResult (static_launch runtime graph device_id max_cycle_length)
    (count_roots_kernel graph max_cycle_length) (fun _ => True) max_cycle_length

-- What the host functions of the static counters check before they call their device functions.
def static_input (graph : GraphView) (device_id : Int) (max_cycle_length : Nat) :
    Except Error CudaGraphData := do
  validate_max_cycle_length max_cycle_length
  runtime.require_device device_id
  pack_graph_for_cuda graph

def count_simple_cycles_johnson (graph : GraphView) (device_id : Int) (max_cycle_length : Nat)
    (result : Except Error CycleHistogram) : Prop :=
  match static_input runtime graph device_id max_cycle_length with
  | .error error => result = .error error
  | .ok data => count_simple_cycles_johnson_device runtime data device_id max_cycle_length result

variable {runtime} {graph : GraphView} {device_id : Int} {max_cycle_length : Nat}

-- A graph without vertices or edges has no cycles.
theorem simple_cycles_eq_empty (hw : graph.WellFormed)
    (h : graph.vertex_count = 0 ∨ graph.edge_count = 0) {k : Nat} (hk : 2 ≤ k) :
    simple_cycles graph k = ∅ := by
  have hnone : ∀ u v, ¬Arc graph u v := fun u v harc => by
    obtain ⟨edge, he, -⟩ := harc
    rcases h with h | h
    · rw [← hw.whole] at he
      have := (hw.bounded u edge he).1
      omega
    · have hedges : graph.outgoing_edges = [] := List.length_eq_zero_iff.mp h
      simp [GraphView.outgoing_entries, stored_row, hedges] at he
  refine Set.eq_empty_iff_forall_notMem.mpr fun c hc => ?_
  have htwo : 2 ≤ c.length := hc.2.1 ▸ hk
  obtain ⟨x, hx⟩ := exists_mem_of_length_pos (show 0 < c.length by omega)
  obtain ⟨next, hf⟩ := exists_follower htwo hx
  exact hnone x next ((chain_iff_follows _ _ htwo).mp hc.2.2 x next hf)

theorem static_launch_none (h : static_launch runtime (packed graph) device_id max_cycle_length =
    .ok none) : graph.vertex_count = 0 ∨ graph.edge_count = 0 := by
  by_contra hsome
  unfold static_launch at h
  rw [if_neg (show ¬((packed graph).vertex_count = 0 ∨ (packed graph).edge_count = 0) from hsome)] at h
  by_cases hdepth : max_cycle_length > INT_MAX
  · rw [if_pos hdepth] at h
    cases h
  · rw [if_neg hdepth] at h
    obtain ⟨_, -, h⟩ := bind_ok h
    cases h

theorem static_launch_some_iff (hsome : ¬(graph.vertex_count = 0 ∨ graph.edge_count = 0))
    {launch : Launch} :
    static_launch runtime (packed graph) device_id max_cycle_length = .ok (some launch) ↔
      max_cycle_length ≤ INT_MAX ∧
        (static_plan (packed graph) device_id max_cycle_length).Possible runtime max_cycle_length ∧
        launch = (static_plan (packed graph) device_id max_cycle_length).planned := by
  unfold static_launch
  rw [if_neg (show ¬((packed graph).vertex_count = 0 ∨ (packed graph).edge_count = 0) from hsome)]
  by_cases hdepth : max_cycle_length > INT_MAX
  · rw [if_pos hdepth]
    refine iff_of_false (fun h => ?_) fun h => ?_
    · cases h
    · have := h.1
      omega
  rw [if_neg hdepth]
  have hle : max_cycle_length ≤ INT_MAX := Nat.le_of_not_lt hdepth
  rw [and_iff_right hle, ← ItemLaunch.launch_ok_iff _ hle]
  constructor
  · intro h
    obtain ⟨found, hfound, h⟩ := bind_ok h
    rw [hfound, Option.some.inj (Except.ok.inj h)]
  · intro h
    rw [ok_bind h]
    rfl

-- Every launch searches from all roots.
theorem static_kernel_counts (hg : Parsed graph) (hids : graph.vertex_count < 2 ^ 32)
    (hmin : 2 ≤ max_cycle_length) :
    KernelCounts (static_launch runtime (packed graph) device_id max_cycle_length)
      (count_roots_kernel (packed graph) max_cycle_length) (fun _ => True) max_cycle_length
      fun k => (simple_cycles graph k).ncard := by
  have hw := hg.well_formed hids
  intro launch hlaunch
  have hsome : ¬(graph.vertex_count = 0 ∨ graph.edge_count = 0) := fun hzero => by
    unfold static_launch at hlaunch
    rw [if_pos (show (packed graph).vertex_count = 0 ∨ (packed graph).edge_count = 0 from hzero)]
      at hlaunch
    cases hlaunch
  obtain ⟨hdepth, hpossible, rfl⟩ := (static_launch_some_iff hsome).mp hlaunch
  have hall := (static_plan (packed graph) device_id max_cycle_length).work_count_le
  refine ⟨hdepth, ItemLaunch.threads_pos _ fun h => hsome (Or.inl h),
    fun memory _ block_histograms schedule grid trace hrun hdone k hk hle => ?_⟩
  have hitems := (@roots_searches graph max_cycle_length
    (static_plan (packed graph) device_id max_cycle_length).planned.threads
      (readable_of_parsed hg hids)
    hpossible.fits (by omega)).items
  have hcap : ∀ limit ∈ some max_cycle_length, k ≤ limit := by simpa using hle
  dsimp only
  rw [← static_tally_eq hw hk hcap, tally_static_events hw,
    ← roots_pending_total hall memory]
  have hstart : AllGood (static_plan (packed graph) device_id max_cycle_length).planned.threads
      (RootGood graph max_cycle_length) (⟨fun _ => some .asking, memory⟩ : Pool Register Stacks) :=
    @all_good_start _ _ _ (count_roots_kernel (packed graph) max_cycle_length) _ (fun _ _ => trivial) memory
  exact hitems.finished hstart (run_reaches hrun) (hdone.registers _) k

theorem static_input_eq {data : CudaGraphData} (hmin : 2 ≤ max_cycle_length)
    (hdevice : runtime.require_device device_id = .ok ()) (hpack : pack_graph_for_cuda graph = .ok data) :
    static_input runtime graph device_id max_cycle_length = .ok (packed graph) := by
  have hlength : validate_max_cycle_length max_cycle_length = .ok () := if_neg (by omega)
  rw [static_input, ok_bind hlength, ok_bind hdevice, hpack, (pack_graph_for_cuda_ok hpack).1]

theorem static_input_ok {data : CudaGraphData}
    (h : static_input runtime graph device_id max_cycle_length = .ok data) :
    data = packed graph ∧ 2 ≤ max_cycle_length := by
  obtain ⟨_, hlength, h⟩ := bind_ok h
  obtain ⟨_, -, h⟩ := bind_ok h
  refine ⟨(pack_graph_for_cuda_ok h).1, ?_⟩
  by_contra hshort
  rw [validate_max_cycle_length, if_pos (by omega)] at hlength
  cases hlength

-- A histogram that the device returns holds the numbers of the cycles, cut to words: it is
-- that of the sequential search wherever this search ends well.
theorem count_simple_cycles_johnson_counts (hg : Parsed graph) (hids : graph.vertex_count < 2 ^ 32)
    {histogram : CycleHistogram}
    (h : count_simple_cycles_johnson runtime graph device_id max_cycle_length (.ok histogram)) :
    WordCounts max_cycle_length (fun k => (simple_cycles graph k).ncard) histogram := by
  unfold count_simple_cycles_johnson at h
  cases hinput : static_input runtime graph device_id max_cycle_length with
  | error error =>
      rw [hinput] at h
      cases h
  | ok data =>
      obtain ⟨rfl, hmin⟩ := static_input_ok hinput
      rw [hinput] at h
      refine DeviceResult.counts h (fun hnone k hk _ => ?_) (static_kernel_counts hg hids hmin)
      rw [simple_cycles_eq_empty (hg.well_formed hids) (static_launch_none hnone) hk, Set.ncard_empty]

theorem counts_eq_sequential (hg : Parsed graph) (hids : graph.vertex_count < 2 ^ 32)
    (hmin : 2 ≤ max_cycle_length)
    {histogram sequential : CycleHistogram}
    (h : WordCounts max_cycle_length (fun k => (simple_cycles graph k).ncard) histogram)
    (hseq : Sequential.count_simple_cycles_johnson graph (some max_cycle_length) = .ok sequential) :
    histogram = sequential := by
  have hw := hg.well_formed hids
  have hcounts := @static_counts graph (some max_cycle_length) hw
  rw [Sequential.count_simple_cycles_johnson_eq hw (by simpa using hmin)] at hseq
  rw [hseq] at hcounts
  refine h.eq_of_counts hcounts fun k hk hle => ?_
  have hcap : ∀ limit ∈ some max_cycle_length, k ≤ limit := by simpa using hle
  have hfits := CycleHistogram.fits_of_record (Sequential.static_events_two_le hw) hseq k
  rwa [CycleHistogram.count_empty, Nat.zero_add, static_tally_eq hw hk hcap] at hfits

-- With one thread for each root, there is a histogram exactly when the launch is possible,
-- or there is nothing to launch it for.
theorem count_simple_cycles_johnson_device_exact (hg : Parsed graph)
    (hids : graph.vertex_count < 2 ^ 32) (hmin : 2 ≤ max_cycle_length)
    (hdevice : runtime.require_device device_id = .ok ()) (hgrants : runtime.Grants)
    {data : CudaGraphData} (hpack : pack_graph_for_cuda graph = .ok data) :
    ((∃ histogram, count_simple_cycles_johnson runtime graph device_id max_cycle_length
        (.ok histogram)) ↔ (graph.vertex_count = 0 ∨ graph.edge_count = 0) ∨
      max_cycle_length ≤ INT_MAX ∧
        (static_plan data device_id max_cycle_length).Possible runtime max_cycle_length) ∧
    ∀ histogram, count_simple_cycles_johnson runtime graph device_id max_cycle_length
        (.ok histogram) →
      WordCounts max_cycle_length (fun k => (simple_cycles graph k).ncard) histogram ∧
        ∀ sequential, Sequential.count_simple_cycles_johnson graph (some max_cycle_length) =
          .ok sequential → histogram = sequential := by
  refine ⟨?_, fun histogram h => ?_⟩
  · have hinput := static_input_eq hmin hdevice hpack
    obtain ⟨rfl, -⟩ := pack_graph_for_cuda_ok hpack
    unfold count_simple_cycles_johnson
    rw [hinput]
    dsimp only
    by_cases hzero : graph.vertex_count = 0 ∨ graph.edge_count = 0
    · rw [iff_true_right (Or.inl hzero)]
      exact ⟨∅, .empty (if_pos hzero)⟩
    rw [or_iff_right hzero]
    constructor
    · intro h
      obtain ⟨histogram, h⟩ := h
      generalize hresult : (Except.ok histogram : Except Error CycleHistogram) = result at h
      cases h with
      | refused _ => cases hresult
      | empty hlaunch => exact absurd (static_launch_none hlaunch) hzero
      | counted hlaunch _ _ _ =>
          obtain ⟨hdepth, hpossible, -⟩ := (static_launch_some_iff hzero).mp hlaunch
          exact ⟨hdepth, hpossible⟩
    · intro h
      obtain ⟨hdepth, hpossible⟩ := h
      have hlaunch := (@static_launch_some_iff runtime graph device_id max_cycle_length hzero _).mpr
        ⟨hdepth, hpossible, rfl⟩
      have hitems := (@roots_searches graph max_cycle_length
        (static_plan (packed graph) device_id max_cycle_length).planned.threads
        (readable_of_parsed hg hids) hpossible.fits (by omega)).items
      exact exists_device_result hlaunch hdepth (ItemLaunch.threads_pos _ fun h => hzero (Or.inl h))
        trivial (@items_end _ _ _ (count_roots_kernel (packed graph) max_cycle_length) _ _ _ _ _ hitems
          (fun _ _ => trivial) (hpossible.granted hgrants) (fun _ _ => 0) ⟨fun _ => 0, fun _ => 0⟩)
  · have hcounts := count_simple_cycles_johnson_counts hg hids h
    exact ⟨hcounts, fun sequential => counts_eq_sequential hg hids hmin hcounts⟩

theorem count_simple_cycles_johnson_device_exact_sample :
    ∃ histogram, count_simple_cycles_johnson working_runtime (view_of sample_rows) 0 3
      (.ok histogram) ∧
        Sequential.count_simple_cycles_johnson (view_of sample_rows) (some 3) = .ok histogram := by
  have hexact := @count_simple_cycles_johnson_device_exact working_runtime (view_of sample_rows) 0 3
    sample_parsed (by decide) (by decide) rfl working_runtime_grants _ rfl
  obtain ⟨histogram, h⟩ := hexact.1.mpr (Or.inr ⟨by decide, by decide, by decide, fun call hcall =>
    working_runtime_works call (List.all_eq_true.mp (by simp [static_plan, kernel_calls, launch_kernel,
      ItemLaunch.planned, CudaCall.granted]) call hcall)⟩)
  refine ⟨histogram, h, ?_⟩
  rw [(hexact.2 histogram h).2 _ rfl]
  rfl

end Static

end CycleEnum.Cuda
