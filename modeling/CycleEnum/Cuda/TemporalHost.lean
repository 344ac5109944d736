import CycleEnum.Cuda.StaticHost
import CycleEnum.Cuda.TemporalTheorems
import CycleEnum.Sequential.TemporalTheorems

namespace CycleEnum.Cuda

open Parallel
open CycleEnum.Sequential (Linked NoWindowOverflow Parsed compute_temporal_cycle_union
  validate_request count_temporal_cycles_bruteforce
  count_temporal_cycles_bruteforce_eq mem_starts
  sample_parsed sample_rows sample_window temporal_counts temporal_cycles
  temporal_events_two_le temporal_tally_eq view_of)

section Host

variable (runtime : CudaRuntime)

def temporal_plan (graph : CudaGraphData) (device_id : Int) (max_cycle_length : Nat)
    (start_events : List CudaStartEvent) : ItemLaunch where
  work_count := start_events.length
  stack_label := "temporal"
  stack_labels := ["path stack", "edge cursor stack", "active edge stack", "timestamp cursor stack",
    "timestamp end stack", "arrival timestamp stack"]
  count_label := "start event count"
  kernel_name := "count_temporal_start_events_kernel"
  uploads := .set_device device_id :: upload_graph graph true ++ device_buffer 16 start_events.length ++
    device_buffer 8 (max_cycle_length + 1)
  buffers per_thread_stack := device_buffer 4 per_thread_stack ++
    (List.replicate 5 (device_buffer 8 per_thread_stack)).flatten ++
    copy_values 16 start_events.length "copy start events" ++
    [.memset (8 * (max_cycle_length + 1)) "clear histogram"]

def temporal_launch (graph : CudaGraphData) (device_id : Int) (max_cycle_length : Nat)
    (start_events : List CudaStartEvent) : Except Error (Option Launch) := do
  if graph.vertex_count = 0 ∨ graph.edge_count = 0 ∨ graph.timestamp_count = 0 then return none
  if max_cycle_length > INT_MAX then
    throw (.overflow_error "max_cycle_length exceeds CUDA kernel limit")
  if start_events = [] then return none
  return some (← (temporal_plan graph device_id max_cycle_length start_events).launch runtime
    max_cycle_length)

def count_temporal_cycles_johnson_device (graph : CudaGraphData) (device_id : Int)
    (window_width : Int) (max_cycle_length : Nat) (start_events : List CudaStartEvent) :
    Except Error CycleHistogram → Prop :=
  DeviceResult (temporal_launch runtime graph device_id max_cycle_length start_events)
    (count_temporal_start_events_kernel graph start_events window_width max_cycle_length)
    (fun _ => True) max_cycle_length

-- What the host function checks and prepares before it calls the device function.
def temporal_input (graph : GraphView) (device_id : Int) (window_width : Int)
    (max_cycle_length : Nat) : Except Error (CudaGraphData × List CudaStartEvent) := do
  validate_max_cycle_length max_cycle_length
  validate_window_width window_width
  runtime.require_device device_id
  let start_events ← build_temporal_start_events graph window_width true
  return (← pack_graph_for_cuda graph, start_events.events)

def count_temporal_cycles_johnson (graph : GraphView) (device_id : Int) (window_width : Int)
    (max_cycle_length : Nat) (result : Except Error CycleHistogram) : Prop :=
  match temporal_input runtime graph device_id window_width max_cycle_length with
  | .error error => result = .error error
  | .ok (data, start_events) => count_temporal_cycles_johnson_device runtime data device_id
      window_width max_cycle_length start_events result

end Host

section Overflow

variable {graph : GraphView} {width : Int}

-- The prefilter asks for the window of every event, so it meets one that overflows.
theorem filter_start_events_overflows (hg : Linked graph) (h0 : 0 ≤ width)
    {all_events : List CudaStartEvent}
    (hin : ∀ event ∈ all_events, event.root < graph.vertex_count ∧
      event.first_vertex < graph.vertex_count ∧ event.first_vertex ≠ event.root)
    (hover : ∃ event ∈ all_events, MAX_TIMESTAMP - width < event.start_timestamp)
    (result : StartEventSet) : filter_start_events graph width all_events result =
      .error (.overflow_error "time window end overflows timestamp range") := by
  induction all_events generalizing result with
  | nil =>
      obtain ⟨event, he, -⟩ := hover
      cases he
  | cons event rest ih =>
      unfold filter_start_events at ih ⊢
      rw [List.foldlM_cons]
      by_cases hfits : event.start_timestamp ≤ MAX_TIMESTAMP - width
      · obtain ⟨hroot, hfirst, hloop⟩ := hin event List.mem_cons_self
        obtain ⟨candidates, hcompute, -⟩ := keeps_spec hg h0 ⟨hroot, hfirst, hloop, hfits⟩
        have hrest : ∃ event ∈ rest, MAX_TIMESTAMP - width < event.start_timestamp := by
          obtain ⟨late, hlate, hlast⟩ := hover
          rcases List.mem_cons.mp hlate with rfl | hlate
          · omega
          · exact ⟨late, hlate, hlast⟩
        have ih := ih (fun event he => hin event (List.mem_cons_of_mem _ he)) hrest
        rw [ok_bind hcompute]
        by_cases hzero : candidates.included_count = 0
        · rw [if_pos hzero]
          exact ih _
        · rw [if_neg hzero]
          exact ih _
      · have hcompute : compute_temporal_cycle_union graph
            ⟨event.root, event.first_vertex, event.start_timestamp, width⟩ =
            .error (.overflow_error "time window end overflows timestamp range") := by
          unfold compute_temporal_cycle_union validate_request
          rw [checked_window_end_overflow h0 (Int.lt_of_not_ge hfits)]
          rfl
        rw [hcompute]
        rfl

theorem build_temporal_start_events_overflows (hw : graph.WellFormed) (hg : Linked graph)
    (h0 : 0 ≤ width) (hover : ¬NoWindowOverflow graph width) :
    build_temporal_start_events graph width true =
      .error (.overflow_error "time window end overflows timestamp range") := by
  unfold NoWindowOverflow at hover
  push Not at hover
  obtain ⟨late, hlate, hlast⟩ := hover
  have hall : ∀ event ∈ all_start_events graph, event.root < graph.vertex_count ∧
      event.first_vertex < graph.vertex_count ∧ event.first_vertex ≠ event.root := by
    intro event he
    rw [all_start_events_eq] at he
    obtain ⟨start, hs, rfl⟩ := List.mem_map.mp he
    obtain ⟨hroot, hedge, -⟩ := mem_starts.mp hs
    exact ⟨hroot, (hw.bounded _ _ hedge).2, hw.no_loop _ _ hedge⟩
  rw [build_temporal_start_events, if_neg (by omega), build_start_events_eq hw.counted]
  refine filter_start_events_overflows hg h0 hall
    ⟨⟨late.root, late.edge.vertex, late.time graph⟩, ?_, hlast⟩ _
  rw [all_start_events_eq]
  exact List.mem_map_of_mem hlate

end Overflow

section Launch

variable {runtime : CudaRuntime} {graph : GraphView} {device_id : Int} {width : Int}
  {max_cycle_length : Nat} {start_events : List CudaStartEvent}

-- A graph with a start event has something of everything.
theorem start_events_eq_nil (hg : Parsed graph) (hids : graph.vertex_count < 2 ^ 32)
    (hzero : graph.vertex_count = 0 ∨ graph.edge_count = 0 ∨ graph.timestamp_count = 0) :
    all_start_events graph = [] := by
  by_contra hsome
  rw [all_start_events_eq, List.map_eq_nil_iff] at hsome
  obtain ⟨start, hs⟩ := List.exists_mem_of_ne_nil _ hsome
  exact (graph_of_start hg hids hs).2 hzero

theorem temporal_launch_cases {launched : Option Launch}
    (h : temporal_launch runtime (packed graph) device_id max_cycle_length start_events =
      .ok launched) :
    ((graph.vertex_count = 0 ∨ graph.edge_count = 0 ∨ graph.timestamp_count = 0) ∧ launched = none) ∨
      max_cycle_length ≤ INT_MAX ∧ (start_events = [] ∧ launched = none ∨
        start_events ≠ [] ∧
        (temporal_plan (packed graph) device_id max_cycle_length start_events).Possible runtime
          max_cycle_length ∧
        launched =
          some (temporal_plan (packed graph) device_id max_cycle_length start_events).planned) := by
  unfold temporal_launch at h
  by_cases hzero : graph.vertex_count = 0 ∨ graph.edge_count = 0 ∨ graph.timestamp_count = 0
  · rw [if_pos (show (packed graph).vertex_count = 0 ∨ (packed graph).edge_count = 0 ∨
      (packed graph).timestamp_count = 0 from hzero)] at h
    exact Or.inl ⟨hzero, (Except.ok.inj h).symm⟩
  rw [if_neg (show ¬((packed graph).vertex_count = 0 ∨ (packed graph).edge_count = 0 ∨
    (packed graph).timestamp_count = 0) from hzero)] at h
  by_cases hdepth : max_cycle_length > INT_MAX
  · rw [if_pos hdepth] at h
    cases h
  rw [if_neg hdepth] at h
  refine Or.inr ⟨Nat.le_of_not_lt hdepth, ?_⟩
  by_cases hnone : start_events = []
  · rw [if_pos hnone] at h
    exact Or.inl ⟨hnone, (Except.ok.inj h).symm⟩
  rw [if_neg hnone] at h
  obtain ⟨launch, hlaunch, h⟩ := bind_ok h
  obtain ⟨hpossible, rfl⟩ := (ItemLaunch.launch_ok_iff _ (Nat.le_of_not_lt hdepth)).mp hlaunch
  exact Or.inr ⟨hnone, hpossible, (Except.ok.inj h).symm⟩

theorem temporal_launch_eq
    (hzero : ¬(graph.vertex_count = 0 ∨ graph.edge_count = 0 ∨ graph.timestamp_count = 0))
    (hdepth : max_cycle_length ≤ INT_MAX) (hsome : start_events ≠ [])
    (hpossible : (temporal_plan (packed graph) device_id max_cycle_length start_events).Possible
      runtime max_cycle_length) :
    temporal_launch runtime (packed graph) device_id max_cycle_length start_events =
      .ok (some (temporal_plan (packed graph) device_id max_cycle_length start_events).planned) := by
  unfold temporal_launch
  rw [if_neg (show ¬((packed graph).vertex_count = 0 ∨ (packed graph).edge_count = 0 ∨
    (packed graph).timestamp_count = 0) from hzero), if_neg (Nat.not_lt.mpr hdepth), if_neg hsome,
    ok_bind ((ItemLaunch.launch_ok_iff _ hdepth).mpr ⟨hpossible, rfl⟩)]
  rfl

section Kept

variable (hg : Parsed graph) (hids : graph.vertex_count < 2 ^ 32) (h0 : 0 ≤ width)
  (hno : NoWindowOverflow graph width)
  (hmin : 2 ≤ max_cycle_length)

include hg hids h0 hno hmin

-- The events that the prefilter keeps lead to as many cycles as there are.
theorem kept_lengths {k : Nat} (hk : 2 ≤ k) (hle : k ≤ max_cycle_length) :
    (timed_lengths (((all_start_events graph).filter (keeps graph width)).flatMap
      (event_closings graph width (some max_cycle_length)))).count k =
      (temporal_cycles graph width k).ncard := by
  have hw := hg.well_formed hids
  have hcap : ∀ limit ∈ some max_cycle_length, 2 ≤ limit := by simpa using hmin
  have hcap' : ∀ limit ∈ some max_cycle_length, k ≤ limit := by simpa using hle
  rw [flatMap_kept_closings hw (linked_of_parsed hg hids) h0 hno, ← tally_temporal_events hw,
    temporal_tally_eq hw h0 hcap hk hcap']

theorem kept_items {threads : Nat}
    (hfit : ((all_start_events graph).filter (keeps graph width)).length * max_cycle_length < 2 ^ 64) :
    Items (count_temporal_start_events_work (packed graph)
        ((all_start_events graph).filter (keeps graph width)) width max_cycle_length)
      threads (TemporalStacks.Same max_cycle_length)
      (TemporalGood graph ((all_start_events graph).filter (keeps graph width)) max_cycle_length)
      Event.bin (OwnSlots max_cycle_length)
      (start_pending graph ((all_start_events graph).filter (keeps graph width)) width
        max_cycle_length) (start_left graph max_cycle_length) := by
  have hvalid : ∀ event ∈ (all_start_events graph).filter (keeps graph width),
      event.Valid graph width := fun event he =>
    all_start_events_valid (hg.well_formed hids) hno event (List.mem_filter.mp he).1
  exact temporal_items (readable_of_parsed hg hids) h0 hvalid hfit hmin

theorem temporal_kernel_counts :
    KernelCounts (temporal_launch runtime (packed graph) device_id max_cycle_length
        ((all_start_events graph).filter (keeps graph width)))
      (count_temporal_start_events_kernel (packed graph)
        ((all_start_events graph).filter (keeps graph width)) width max_cycle_length)
      (fun _ => True) max_cycle_length fun k => (temporal_cycles graph width k).ncard := by
  intro launch hlaunch
  rcases temporal_launch_cases hlaunch with ⟨-, hnone⟩ | ⟨hdepth, ⟨-, hnone⟩ | ⟨hsome, hpossible, hlast⟩⟩
  · cases hnone
  · cases hnone
  obtain rfl := Option.some.inj hlast
  refine ⟨hdepth, ItemLaunch.threads_pos _ fun h => hsome (List.length_eq_zero_iff.mp h),
    fun memory _ block_histograms schedule grid trace hrun hdone k hk hle => ?_⟩
  have hitems := @kept_items graph width max_cycle_length hg hids h0 hno hmin
    (temporal_plan (packed graph) device_id max_cycle_length
      ((all_start_events graph).filter (keeps graph width))).planned.threads hpossible.fits
  have hstart : AllGood (temporal_plan (packed graph) device_id max_cycle_length
        ((all_start_events graph).filter (keeps graph width))).planned.threads
      (TemporalGood graph ((all_start_events graph).filter (keeps graph width)) max_cycle_length)
      (⟨fun _ => some .asking, memory⟩ : Pool TemporalRegister TemporalStacks) :=
    @all_good_start _ _ _ (count_temporal_start_events_kernel (packed graph)
      ((all_start_events graph).filter (keeps graph width)) width max_cycle_length) _
      (fun _ _ => trivial) memory
  have hall := (temporal_plan (packed graph) device_id max_cycle_length
    ((all_start_events graph).filter (keeps graph width))).work_count_le
  dsimp only
  rw [← kept_lengths hg hids h0 hno hmin hk hle, ← start_pending_total hall memory]
  exact hitems.finished hstart (run_reaches hrun) (hdone.registers _) k

-- Where nothing is launched there is no cycle.
theorem temporal_none (hnone : temporal_launch runtime (packed graph) device_id max_cycle_length
      ((all_start_events graph).filter (keeps graph width)) = .ok none) {k : Nat} (hk : 2 ≤ k)
    (hle : k ≤ max_cycle_length) : (temporal_cycles graph width k).ncard = 0 := by
  have hkept : (all_start_events graph).filter (keeps graph width) = [] := by
    rcases temporal_launch_cases hnone with ⟨hzero, -⟩ | ⟨-, ⟨hkept, -⟩ | ⟨-, -, hsome⟩⟩
    · rw [start_events_eq_nil hg hids hzero]
      rfl
    · exact hkept
    · cases hsome
  rw [← kept_lengths hg hids h0 hno hmin hk hle, hkept]
  rfl

end Kept

section Host

variable {data : CudaGraphData}

theorem temporal_input_eq (hg : Parsed graph) (hids : graph.vertex_count < 2 ^ 32) (h0 : 0 ≤ width)
    (hno : NoWindowOverflow graph width)
    (hmin : 2 ≤ max_cycle_length) (hdevice : runtime.require_device device_id = .ok ())
    (hpack : pack_graph_for_cuda graph = .ok data) :
    temporal_input runtime graph device_id width max_cycle_length =
      .ok (packed graph, (all_start_events graph).filter (keeps graph width)) := by
  have hlength : validate_max_cycle_length max_cycle_length = .ok () := if_neg (by omega)
  have hwidth : validate_window_width width = .ok () := if_neg (by omega)
  have hbuild := build_temporal_start_events_eq (hg.well_formed hids)
    (linked_of_parsed hg hids) h0 hno
  obtain ⟨rfl, -⟩ := pack_graph_for_cuda_ok hpack
  rw [temporal_input, ok_bind hlength, ok_bind hwidth, ok_bind hdevice, ok_bind hbuild, ok_bind hpack]
  rfl

theorem temporal_input_overflows (hg : Parsed graph) (hids : graph.vertex_count < 2 ^ 32)
    (h0 : 0 ≤ width)
    (hover : ¬NoWindowOverflow graph width) (hmin : 2 ≤ max_cycle_length)
    (hdevice : runtime.require_device device_id = .ok ()) :
    temporal_input runtime graph device_id width max_cycle_length =
      .error (.overflow_error "time window end overflows timestamp range") := by
  have hlength : validate_max_cycle_length max_cycle_length = .ok () := if_neg (by omega)
  have hwidth : validate_window_width width = .ok () := if_neg (by omega)
  rw [temporal_input, ok_bind hlength, ok_bind hwidth, ok_bind hdevice,
    build_temporal_start_events_overflows (hg.well_formed hids) (linked_of_parsed hg hids) h0 hover]
  rfl

-- A histogram that the device returns holds the numbers of the temporal cycles, cut to words.
theorem count_temporal_cycles_johnson_counts (hg : Parsed graph)
    (hids : graph.vertex_count < 2 ^ 32) (h0 : 0 ≤ width)
    (hno : NoWindowOverflow graph width) (hmin : 2 ≤ max_cycle_length)
    (hdevice : runtime.require_device device_id = .ok ())
    (hpack : pack_graph_for_cuda graph = .ok data) {histogram : CycleHistogram}
    (h : count_temporal_cycles_johnson runtime graph device_id width max_cycle_length
      (.ok histogram)) :
    WordCounts max_cycle_length (fun k => (temporal_cycles graph width k).ncard) histogram := by
  unfold count_temporal_cycles_johnson at h
  rw [temporal_input_eq hg hids h0 hno hmin hdevice hpack] at h
  exact DeviceResult.counts h (fun hnone k hk hle => temporal_none hg hids h0 hno hmin hnone hk hle)
    (temporal_kernel_counts hg hids h0 hno hmin)

theorem counts_eq_bruteforce (hg : Parsed graph) (hids : graph.vertex_count < 2 ^ 32) (h0 : 0 ≤ width)
    (hno : NoWindowOverflow graph width) (hmin : 2 ≤ max_cycle_length)
    {histogram sequential : CycleHistogram}
    (h : WordCounts max_cycle_length (fun k => (temporal_cycles graph width k).ncard) histogram)
    (hseq : count_temporal_cycles_bruteforce graph width (some max_cycle_length) = .ok sequential) :
    histogram = sequential := by
  have hw := hg.well_formed hids
  have hlimit : ∀ limit ∈ some max_cycle_length, 2 ≤ limit := by simpa using hmin
  have hcounts := temporal_counts hw h0 hlimit
  rw [count_temporal_cycles_bruteforce_eq hw h0 hno hlimit] at hseq
  rw [hseq] at hcounts
  refine h.eq_of_counts hcounts fun k hk hle => ?_
  have hcap : ∀ limit ∈ some max_cycle_length, k ≤ limit := by simpa using hle
  have hfits := CycleHistogram.fits_of_record (temporal_events_two_le hw) hseq k
  rwa [CycleHistogram.count_empty, Nat.zero_add, temporal_tally_eq hw h0 hlimit hk hcap] at hfits

-- The prefilter stops at a window that overflows. Otherwise there is a histogram exactly
-- when the launch is possible or there is nothing to launch it for, and it holds what the
-- sequential search counts.
theorem count_temporal_cycles_johnson_device_exact (hg : Parsed graph)
    (hids : graph.vertex_count < 2 ^ 32) (h0 : 0 ≤ width)
    (hmin : 2 ≤ max_cycle_length) (hdevice : runtime.require_device device_id = .ok ())
    (hgrants : runtime.Grants) (hpack : pack_graph_for_cuda graph = .ok data) :
    (¬NoWindowOverflow graph width → ∀ result,
      count_temporal_cycles_johnson runtime graph device_id width max_cycle_length result →
        result = .error (.overflow_error "time window end overflows timestamp range")) ∧
    (NoWindowOverflow graph width → ∃ start_events,
      build_temporal_start_events graph width true = .ok start_events ∧
      ((∃ histogram, count_temporal_cycles_johnson runtime graph device_id width max_cycle_length
          (.ok histogram)) ↔
        (graph.vertex_count = 0 ∨ graph.edge_count = 0 ∨ graph.timestamp_count = 0) ∨
          max_cycle_length ≤ INT_MAX ∧ (start_events.events = [] ∨
            (temporal_plan data device_id max_cycle_length start_events.events).Possible runtime
              max_cycle_length)) ∧
      ∀ histogram, count_temporal_cycles_johnson runtime graph device_id width max_cycle_length
          (.ok histogram) →
        WordCounts max_cycle_length (fun k => (temporal_cycles graph width k).ncard) histogram ∧
          ∀ sequential, count_temporal_cycles_bruteforce graph width (some max_cycle_length) =
            .ok sequential → histogram = sequential) := by
  constructor
  · intro hover result h
    unfold count_temporal_cycles_johnson at h
    rw [temporal_input_overflows hg hids h0 hover hmin hdevice] at h
    exact h
  intro hno
  have hbuild := build_temporal_start_events_eq (hg.well_formed hids)
    (linked_of_parsed hg hids) h0 hno
  refine ⟨_, hbuild, ?_, fun histogram h => ?_⟩
  · have hinput := temporal_input_eq hg hids h0 hno hmin hdevice hpack
    obtain ⟨rfl, -⟩ := pack_graph_for_cuda_ok hpack
    unfold count_temporal_cycles_johnson
    rw [hinput]
    dsimp only
    constructor
    · intro h
      obtain ⟨histogram, h⟩ := h
      generalize hresult : (Except.ok histogram : Except Error CycleHistogram) = result at h
      cases h with
      | refused _ => cases hresult
      | empty hlaunch =>
          rcases temporal_launch_cases hlaunch with ⟨hzero, -⟩ | ⟨hdepth, ⟨hkept, -⟩ | ⟨-, -, hsome⟩⟩
          · exact Or.inl hzero
          · exact Or.inr ⟨hdepth, Or.inl hkept⟩
          · cases hsome
      | counted hlaunch _ _ _ =>
          rcases temporal_launch_cases hlaunch with ⟨-, hnone⟩ | ⟨hdepth, ⟨-, hnone⟩ | ⟨-, hpossible, -⟩⟩
          · cases hnone
          · cases hnone
          · exact Or.inr ⟨hdepth, Or.inr hpossible⟩
    · intro h
      by_cases hzero : graph.vertex_count = 0 ∨ graph.edge_count = 0 ∨ graph.timestamp_count = 0
      · exact ⟨∅, .empty (if_pos hzero)⟩
      obtain ⟨hdepth, h⟩ := h.resolve_left hzero
      by_cases hkept : (all_start_events graph).filter (keeps graph width) = []
      · refine ⟨∅, .empty ?_⟩
        unfold temporal_launch
        rw [if_neg (show ¬((packed graph).vertex_count = 0 ∨ (packed graph).edge_count = 0 ∨
          (packed graph).timestamp_count = 0) from hzero), if_neg (Nat.not_lt.mpr hdepth), if_pos hkept]
        rfl
      have hpossible := h.resolve_left hkept
      have hitems := @kept_items graph width max_cycle_length hg hids h0 hno hmin
        (temporal_plan (packed graph) device_id max_cycle_length
          ((all_start_events graph).filter (keeps graph width))).planned.threads hpossible.fits
      exact exists_device_result (temporal_launch_eq hzero hdepth hkept hpossible) hdepth
        (ItemLaunch.threads_pos _ fun h => hkept (List.length_eq_zero_iff.mp h)) trivial
        (@items_end _ _ _ (count_temporal_start_events_kernel (packed graph)
            ((all_start_events graph).filter (keeps graph width)) width max_cycle_length)
          _ _ _ _ _ hitems (fun _ _ => trivial) (hpossible.granted hgrants) (fun _ _ => 0)
          ⟨fun _ => 0, fun _ => 0, fun _ => 0, fun _ => 0, fun _ => 0, fun _ => 0⟩)
  · have hcounts := count_temporal_cycles_johnson_counts hg hids h0 hno hmin hdevice hpack h
    exact ⟨hcounts, fun sequential => counts_eq_bruteforce hg hids h0 hno hmin hcounts⟩

theorem count_temporal_cycles_johnson_device_exact_sample :
    ∃ histogram, count_temporal_cycles_johnson working_runtime (view_of sample_rows) 0 10 3
      (.ok histogram) ∧
        count_temporal_cycles_bruteforce (view_of sample_rows) 10 (some 3) = .ok histogram := by
  have hexact := (@count_temporal_cycles_johnson_device_exact working_runtime (view_of sample_rows) 0
    10 3 _ sample_parsed (by decide) (by decide) (by decide) rfl working_runtime_grants rfl).2
      sample_window
  obtain ⟨start_events, hbuild, hiff, hall⟩ := hexact
  obtain rfl : ⟨[⟨0, 1, 1⟩], 4, 3⟩ = start_events :=
    Except.ok.inj ((show build_temporal_start_events (view_of sample_rows) 10 true = _ from rfl).symm.trans
      hbuild)
  obtain ⟨histogram, h⟩ := hiff.mpr (Or.inr ⟨by decide, Or.inr ⟨by decide, by decide, fun call hcall =>
    working_runtime_works call (List.all_eq_true.mp (by simp [temporal_plan, kernel_calls,
      launch_kernel, ItemLaunch.planned, CudaCall.granted]) call hcall)⟩⟩)
  refine ⟨histogram, h, ?_⟩
  rw [(hall histogram h).2 _ rfl]
  rfl

end Host

end Launch

end CycleEnum.Cuda
