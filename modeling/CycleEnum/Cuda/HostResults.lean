import CycleEnum.Core.Exceptions
import CycleEnum.Cuda.QueueHost
import CycleEnum.Cuda.TemporalHost
import CycleEnum.Cuda.WindowHost

namespace CycleEnum.Cuda

open Process (Settles)
open Parallel
open CycleEnum.Sequential (NoWindowOverflow Parsed simple_cycles temporal_cycles window_instances
  window_instances_ncard)

-- Whatever the host functions refuse, they refuse with an exception.
section Checks

variable (runtime : CudaRuntime)

theorem make_throws (calls : List CudaCall) : Throws (fun _ => True) (runtime.make calls) := by
  refine Settles.forM fun call => ?_
  unfold CudaRuntime.check_cuda
  cases runtime.failure call with
  | none => trivial
  | some text => trivial

theorem require_device_throws (device_id : Int) :
    Throws (fun _ => True) (runtime.require_device device_id) := by
  have hcount : Throws (fun _ => True) (runtime.check_cuda .get_device_count) := by
    unfold CudaRuntime.check_cuda
    cases runtime.failure .get_device_count with
    | none => trivial
    | some text => trivial
  unfold CudaRuntime.require_device
  dsimp only
  split
  · trivial
  · refine hcount.bind fun _ _ => ?_
    split
    · trivial
    · trivial

theorem pack_graph_for_cuda_throws (graph : GraphView) :
    Throws (fun _ => True) (pack_graph_for_cuda graph) := by
  have hoffset : ∀ value, Throws (fun _ => True) (checked_offset value) := fun _ => throws_check trivial
  have hoffsets : ∀ offsets, Throws (fun _ => True) (pack_offsets offsets) := fun _ => .mapM hoffset
  have hadjacency : ∀ entries, Throws (fun _ => True) (pack_adjacency entries) := fun _ =>
    .mapM fun _ => (hoffset _).bind fun _ _ => (hoffset _).bind fun _ _ => trivial
  refine (hoffset _).bind fun _ _ => (hoffset _).bind fun _ _ => (hoffset _).bind fun _ _ =>
    (hoffsets _).bind fun _ _ => (hadjacency _).bind fun _ _ => (hoffsets _).bind fun _ _ =>
      (hadjacency _).bind fun _ _ => Settles.bind (.mapM fun _ => ?_) fun _ _ => trivial
  exact (hoffset _).bind fun _ _ => (hoffset _).bind fun _ _ => trivial

theorem static_input_throws (graph : GraphView) (device_id : Int) (max_cycle_length : Nat) :
    Throws (fun _ => True) (static_input runtime graph device_id max_cycle_length) :=
  Settles.bind (throws_check trivial : Throws (fun _ => True) (validate_max_cycle_length _)) fun _ _ =>
    (require_device_throws runtime device_id).bind fun _ _ => pack_graph_for_cuda_throws graph

end Checks

section Launch

variable {runtime : CudaRuntime} {max_cycle_length : Nat}

theorem checked_allocations_throws (slots : Nat) (labels : List String) :
    Throws (fun _ => True) (labels.mapM (checked_allocation_count slots)) :=
  .mapM fun _ => throws_check trivial

theorem ItemLaunch.launch_throws (plan : ItemLaunch) :
    Throws (fun _ => True) (plan.launch runtime max_cycle_length) := by
  have hslots : Throws (fun _ => True)
      (checked_stack_slots plan.work_count max_cycle_length plan.stack_label) := throws_check trivial
  have hblocks : Throws (fun _ => True) (checked_grid_blocks plan.work_count 128 plan.count_label) :=
    throws_check trivial
  have hshared : Throws (fun _ => True) (shared_histogram_bytes max_cycle_length) :=
    throws_check trivial
  exact (make_throws runtime _).bind fun _ _ => hslots.bind fun _ _ =>
    (checked_allocations_throws _ _).bind fun _ _ => (make_throws runtime _).bind fun _ _ =>
      hblocks.bind fun _ _ => hshared.bind fun _ _ => (make_throws runtime _).bind fun _ _ => trivial

theorem static_launch_throws (graph : CudaGraphData) (device_id : Int) :
    Throws (fun _ => True) (static_launch runtime graph device_id max_cycle_length) := by
  unfold static_launch
  dsimp only
  split
  · trivial
  split
  · trivial
  · exact (ItemLaunch.launch_throws _).bind fun _ _ => trivial

theorem temporal_launch_throws (graph : CudaGraphData) (device_id : Int)
    (start_events : List CudaStartEvent) : Throws (fun _ => True)
      (temporal_launch runtime graph device_id max_cycle_length start_events) := by
  unfold temporal_launch
  dsimp only
  split
  · trivial
  split
  · trivial
  split
  · trivial
  · exact (ItemLaunch.launch_throws _).bind fun _ _ => trivial

theorem time_window_launch_throws (graph : CudaGraphData) (device_id : Int)
    (start_events : List CudaStartEvent) : Throws (fun _ => True)
      (time_window_launch runtime graph device_id max_cycle_length start_events) := by
  have hslots : Throws (fun _ => True)
      (checked_stack_slots start_events.length max_cycle_length "time-window") := throws_check trivial
  have hallocation : ∀ slots label, Throws (fun _ => True) (checked_allocation_count slots label) :=
    fun _ _ => throws_check trivial
  have hblocks : Throws (fun _ => True)
      (checked_grid_blocks start_events.length 128 "start event count") := throws_check trivial
  have hshared : Throws (fun _ => True) (shared_histogram_bytes max_cycle_length) :=
    throws_check trivial
  unfold time_window_launch
  dsimp only
  split
  · trivial
  split
  · trivial
  split
  · trivial
  · exact (make_throws _ _).bind fun _ _ => hslots.bind fun _ _ => (hallocation _ _).bind fun _ _ =>
      (hallocation _ _).bind fun _ _ => (make_throws _ _).bind fun _ _ => hblocks.bind fun _ _ =>
        hshared.bind fun _ _ => (make_throws _ _).bind fun _ _ => trivial

end Launch

section Queue

variable {runtime : QueueRuntime} {environment : Environment} {timed : Bool} {max_cycle_length : Nat}

theorem time_throws (runtime : QueueRuntime) (timed : Bool) (calls : List TimerCall) :
    Throws (fun _ => True) (runtime.time timed calls) := by
  unfold QueueRuntime.time
  split_ifs
  · refine Settles.forM fun call => ?_
    unfold QueueRuntime.check_timer
    cases runtime.timer_failure call with
    | none => trivial
    | some text => trivial
  · trivial

theorem read_positive_env_throws (environment : Environment) (name : String) (fallback : Nat) :
    Throws (fun _ => True) (read_positive_env environment name fallback) := by
  unfold read_positive_env
  split
  · trivial
  · trivial
  · split
    · trivial
    · trivial
    · exact throws_check trivial

theorem work_queue_tuning_from_env_throws (environment : Environment) :
    Throws (fun _ => True) (work_queue_tuning_from_env environment) := by
  refine (read_positive_env_throws _ _ _).bind fun _ _ => (read_positive_env_throws _ _ _).bind
    fun _ _ => ?_
  split_ifs
  · trivial
  · trivial

theorem plan_queue_throws (graph : CudaGraphData) (device_id : Int) :
    Throws (fun _ => True) (plan_queue runtime environment graph device_id) := by
  have hproperties : Throws (fun _ => True) (runtime.get_device_properties device_id) := by
    unfold QueueRuntime.get_device_properties
    cases runtime.properties_failure device_id with
    | none => trivial
    | some text => trivial
  refine (make_throws _ _).bind fun _ _ => hproperties.bind fun _ _ =>
    (work_queue_tuning_from_env_throws environment).bind fun _ _ => ?_
  unfold plan_work_queue_launch
  split_ifs
  · trivial
  · trivial
  · trivial

theorem start_queue_throws (graph : CudaGraphData) (launch : Launch) :
    Throws (fun _ => True) (start_queue runtime timed graph max_cycle_length launch) := by
  have hslots : ∀ threads, Throws (fun _ => True)
      (checked_stack_slots threads max_cycle_length "work-queue") := fun _ => throws_check trivial
  have hshared : Throws (fun _ => True) (shared_histogram_bytes max_cycle_length) :=
    throws_check trivial
  exact (time_throws _ _ _).bind fun _ _ => (make_throws _ _).bind fun _ _ =>
    (time_throws _ _ _).bind fun _ _ => (make_throws _ _).bind fun _ _ => (hslots _).bind fun _ _ =>
      (checked_allocations_throws _ _).bind fun _ _ => (make_throws _ _).bind fun _ _ =>
        hshared.bind fun _ _ => (time_throws _ _ _).bind fun _ _ => (make_throws _ _).bind fun _ _ =>
          (time_throws _ _ _).bind fun _ _ => (make_throws _ _).bind fun _ _ => time_throws _ _ _

theorem queue_launch_throws (graph : CudaGraphData) (device_id : Int) : Throws (fun _ => True)
    (queue_launch runtime environment timed graph device_id max_cycle_length) := by
  unfold queue_launch
  dsimp only
  split
  · trivial
  split
  · trivial
  · refine (plan_queue_throws graph device_id).bind fun launch _ => ?_
    split
    · trivial
    · exact (start_queue_throws graph launch).bind fun _ _ => trivial

end Queue

section Results

variable {R M E : Type} {launched : Except Error (Option Launch)} {kernel : Kernel R M E}
  {fresh : M → Prop} {max_cycle_length : Nat} {number : Nat → Nat}

-- What a device function comes to.
theorem DeviceResult.throws {result : Except Error CycleHistogram}
    (h : DeviceResult launched kernel fresh max_cycle_length result)
    (hlaunched : Throws (fun _ => True) launched)
    (hnone : launched = .ok none → ∀ k, 2 ≤ k → k ≤ max_cycle_length → number k = 0)
    (hkernel : KernelCounts launched kernel fresh max_cycle_length number) :
    Throws (WordCounts max_cycle_length number) result := by
  cases result with
  | ok histogram => exact h.counts hnone hkernel
  | error error =>
      have hrefused := (DeviceResult.error_iff fun launch hlaunch =>
        ⟨(hkernel launch hlaunch).1, (hkernel launch hlaunch).2.1⟩).mp h
      rw [hrefused] at hlaunched
      exact hlaunched

variable {runtime : QueueRuntime} {environment : Environment} {timed : Bool} {graph : GraphView}
  {device_id : Int} {width : Int} {result : Except Error CycleHistogram}

theorem count_simple_cycles_johnson_throws (hg : Parsed graph) (hids : graph.vertex_count < 2 ^ 32)
    (h : count_simple_cycles_johnson runtime.toCudaRuntime graph device_id max_cycle_length result) :
    Throws (WordCounts max_cycle_length fun k => (simple_cycles graph k).ncard) result := by
  have hinput := static_input_throws runtime.toCudaRuntime graph device_id max_cycle_length
  unfold count_simple_cycles_johnson at h
  cases hfound : static_input runtime.toCudaRuntime graph device_id max_cycle_length with
  | error error =>
      rw [hfound] at h hinput
      obtain rfl := h
      exact hinput
  | ok data =>
      obtain ⟨rfl, hmin⟩ := static_input_ok hfound
      rw [hfound] at h
      refine DeviceResult.throws h (static_launch_throws _ _) (fun hnone k hk _ => ?_)
        (static_kernel_counts hg hids hmin)
      rw [simple_cycles_eq_empty (hg.well_formed hids) (static_launch_none hnone) hk, Set.ncard_empty]

theorem count_simple_cycles_johnson_work_queue_throws (hg : Parsed graph)
    (hids : graph.vertex_count < 2 ^ 32)
    (h : count_simple_cycles_johnson_work_queue runtime environment timed graph device_id
      max_cycle_length result) :
    Throws (WordCounts max_cycle_length fun k => (simple_cycles graph k).ncard) result := by
  have hinput := static_input_throws runtime.toCudaRuntime graph device_id max_cycle_length
  unfold count_simple_cycles_johnson_work_queue at h
  cases hfound : static_input runtime.toCudaRuntime graph device_id max_cycle_length with
  | error error =>
      rw [hfound] at h hinput
      obtain rfl := h
      exact hinput
  | ok data =>
      obtain ⟨rfl, hmin⟩ := static_input_ok hfound
      rw [hfound] at h
      refine DeviceResult.throws h (queue_launch_throws _ _) (fun hnone k hk _ => ?_)
        (queue_kernel_counts hg hids hmin)
      rcases queue_launch_cases hids hnone with ⟨hzero, -⟩ | ⟨-, found, hlaunch, -⟩
      · rw [simple_cycles_eq_empty (hg.well_formed hids) hzero hk, Set.ncard_empty]
      · cases hlaunch

theorem temporal_input_throws (hg : Parsed graph) (hids : graph.vertex_count < 2 ^ 32)
    (h0 : 0 ≤ width) (max_cycle_length : Nat) :
    Throws (fun _ => True)
      (temporal_input runtime.toCudaRuntime graph device_id width max_cycle_length) := by
  have hlength : Throws (fun _ => True) (validate_max_cycle_length max_cycle_length) :=
    throws_check trivial
  have hwidth : Throws (fun _ => True) (validate_window_width width) := throws_check trivial
  have hbuild : Throws (fun _ => True) (build_temporal_start_events graph width true) := by
    by_cases hno : NoWindowOverflow graph width
    · rw [build_temporal_start_events_eq (hg.well_formed hids) (linked_of_parsed hg hids) h0 hno]
      trivial
    · rw [build_temporal_start_events_overflows (hg.well_formed hids)
      (linked_of_parsed hg hids) h0 hno]
      trivial
  exact hlength.bind fun _ _ => hwidth.bind fun _ _ => (require_device_throws _ _).bind fun _ _ =>
    hbuild.bind fun _ _ => (pack_graph_for_cuda_throws graph).bind fun _ _ => trivial

theorem temporal_input_ok {found : CudaGraphData × List CudaStartEvent} (hg : Parsed graph)
    (hids : graph.vertex_count < 2 ^ 32)
    (h0 : 0 ≤ width)
    (h : temporal_input runtime.toCudaRuntime graph device_id width max_cycle_length = .ok found) :
    2 ≤ max_cycle_length ∧ NoWindowOverflow graph width ∧
      found = (packed graph, (all_start_events graph).filter (keeps graph width)) := by
  obtain ⟨_, hlength, h⟩ := bind_ok h
  obtain ⟨_, -, h⟩ := bind_ok h
  obtain ⟨_, -, h⟩ := bind_ok h
  obtain ⟨events, hbuild, h⟩ := bind_ok h
  obtain ⟨data, hpack, h⟩ := bind_ok h
  obtain rfl := Except.ok.inj h
  have hmin : 2 ≤ max_cycle_length := by
    by_contra hshort
    rw [validate_max_cycle_length, if_pos (by omega)] at hlength
    cases hlength
  have hno : NoWindowOverflow graph width := by
    by_contra hover
    rw [build_temporal_start_events_overflows (hg.well_formed hids) (linked_of_parsed hg hids) h0
      hover] at hbuild
    cases hbuild
  rw [build_temporal_start_events_eq (hg.well_formed hids) (linked_of_parsed hg hids) h0
    hno] at hbuild
  refine ⟨hmin, hno, ?_⟩
  rw [(pack_graph_for_cuda_ok hpack).1, ← Except.ok.inj hbuild]

theorem count_temporal_cycles_johnson_throws (hg : Parsed graph)
    (hids : graph.vertex_count < 2 ^ 32) (h0 : 0 ≤ width)
    (h : count_temporal_cycles_johnson runtime.toCudaRuntime graph device_id width max_cycle_length
      result) :
    Throws (WordCounts max_cycle_length fun k => (temporal_cycles graph width k).ncard) result := by
  have hinput := @temporal_input_throws runtime graph device_id width hg hids h0 max_cycle_length
  unfold count_temporal_cycles_johnson at h
  cases hfound : temporal_input runtime.toCudaRuntime graph device_id width max_cycle_length with
  | error error =>
      rw [hfound] at h hinput
      obtain rfl := h
      exact hinput
  | ok found =>
      obtain ⟨hmin, hno, rfl⟩ := temporal_input_ok hg hids h0 hfound
      rw [hfound] at h
      exact DeviceResult.throws h (temporal_launch_throws _ _ _)
        (fun hnone k hk hle => temporal_none hg hids h0 hno hmin hnone hk hle)
        (temporal_kernel_counts hg hids h0 hno hmin)

section Window

variable {runtime : CudaRuntime}

theorem time_window_launch_cases {launched : Option Launch}
    (h : time_window_launch runtime (packed graph) device_id max_cycle_length
      (all_start_events graph) = .ok launched) (hg : Parsed graph)
        (hids : graph.vertex_count < 2 ^ 32) :
    (all_start_events graph = [] ∧ launched = none) ∨
      Launchable runtime (packed graph) device_id max_cycle_length (all_start_events graph) ∧
        all_start_events graph ≠ [] ∧
          launched = some ⟨128, ((all_start_events graph).length + 127) / 128⟩ := by
  by_cases hzero : graph.vertex_count = 0 ∨ graph.edge_count = 0 ∨ graph.timestamp_count = 0
  · have hzero' : (packed graph).vertex_count = 0 ∨ (packed graph).edge_count = 0 ∨
        (packed graph).timestamp_count = 0 := hzero
    unfold time_window_launch at h
    rw [if_pos hzero'] at h
    exact Or.inl ⟨start_events_eq_nil hg hids hzero, (Except.ok.inj h).symm⟩
  by_cases hnone : all_start_events graph = []
  · unfold time_window_launch at h
    rw [if_neg (show ¬((packed graph).vertex_count = 0 ∨ (packed graph).edge_count = 0 ∨
      (packed graph).timestamp_count = 0) from hzero)] at h
    by_cases hdepth : max_cycle_length > INT_MAX
    · rw [if_pos hdepth] at h
      cases h
    · rw [if_neg hdepth, if_pos hnone] at h
      exact Or.inl ⟨hnone, (Except.ok.inj h).symm⟩
  · obtain ⟨hlaunch, hlast⟩ := (time_window_launch_ok_iff
      (show ¬((packed graph).vertex_count = 0 ∨ (packed graph).edge_count = 0 ∨
        (packed graph).timestamp_count = 0) from hzero) hnone).mp h
    exact Or.inr ⟨hlaunch, hnone, hlast⟩

variable (hg : Parsed graph) (hids : graph.vertex_count < 2 ^ 32) (h0 : 0 ≤ width)
  (hno : NoWindowOverflow graph width)

include hg hids h0 hno

theorem window_instances_eq (k : Nat) :
    (window_instances graph width (some max_cycle_length) k).ncard =
      (((all_start_events graph).flatMap (device_closings graph width max_cycle_length)).map
        List.length).count k := by
  have hw := hg.well_formed hids
  rw [window_instances_ncard hw, tally_window_events hw, ← flatMap_device_closings hw h0 hno]

theorem window_kernel_counts (hmin : 2 ≤ max_cycle_length) :
    KernelCounts (time_window_launch runtime (packed graph) device_id max_cycle_length
        (all_start_events graph))
      (count_time_window_start_events_kernel (packed graph) (all_start_events graph) width
        max_cycle_length) (fun _ => True) max_cycle_length
      fun k => (window_instances graph width (some max_cycle_length) k).ncard := by
  intro launch hlaunch
  rcases time_window_launch_cases hlaunch hg hids with ⟨-, hnone⟩ | ⟨hpossible, hevents, hlast⟩
  · cases hnone
  obtain rfl := Option.some.inj hlast
  have hlen : 0 < (all_start_events graph).length := List.length_pos_iff.mpr hevents
  have hfit : (all_start_events graph).length * max_cycle_length < 2 ^ 64 := by
    have := hpossible.slots
    unfold MAX_DEVICE_OFFSET at this
    omega
  generalize hl : (⟨128, ((all_start_events graph).length + 127) / 128⟩ : Launch) = launch at hlaunch ⊢
  have hall : (all_start_events graph).length ≤ launch.threads := by
    subst hl
    unfold Launch.threads
    dsimp only
    omega
  refine ⟨hpossible.depth, by omega,
    fun memory _ block_histograms schedule grid trace hrun hdone k hk hle => ?_⟩
  have hitems := @window_items graph _ width max_cycle_length launch.threads
    (readable_of_parsed hg hids)
    (all_start_events_in_graph (hg.well_formed hids)) hfit hmin
  dsimp only
  rw [window_instances_eq hg hids h0 hno, ← window_pending_total hall memory]
  exact hitems.finished (all_good_start (fun _ _ => trivial) memory) (run_reaches hrun)
    (hdone.registers _) k

theorem window_none (hnone : time_window_launch runtime (packed graph) device_id max_cycle_length
      (all_start_events graph) = .ok none) (k : Nat) :
    (window_instances graph width (some max_cycle_length) k).ncard = 0 := by
  rcases time_window_launch_cases hnone hg hids with ⟨hevents, -⟩ | ⟨-, -, hsome⟩
  · rw [window_instances_eq hg hids h0 hno, hevents]
    rfl
  · cases hsome

theorem count_time_window_cycles_johnson_throws
    (h : count_time_window_cycles_johnson runtime graph device_id width max_cycle_length result) :
    Throws (WordCounts max_cycle_length
      fun k => (window_instances graph width (some max_cycle_length) k).ncard) result := by
  have hlength : Throws (fun _ => True) (validate_max_cycle_length max_cycle_length) :=
    throws_check trivial
  have hwidth : Throws (fun _ => True) (validate_window_width width) := throws_check trivial
  have hbuild : Throws (fun _ => True) (build_start_events graph) := by
    rw [build_start_events_eq hids]
    trivial
  have hinput : Throws (fun _ => True)
      (time_window_input runtime graph device_id width max_cycle_length) :=
    hlength.bind fun _ _ => hwidth.bind fun _ _ => (require_device_throws _ _).bind fun _ _ =>
      hbuild.bind fun _ _ => (pack_graph_for_cuda_throws graph).bind fun _ _ => trivial
  unfold count_time_window_cycles_johnson at h
  cases hfound : time_window_input runtime graph device_id width max_cycle_length with
  | error error =>
      rw [hfound] at h hinput
      obtain rfl := h
      exact hinput
  | ok found =>
      obtain ⟨hmin, -, rfl⟩ := time_window_input_ok hfound
      rw [hfound] at h
      have hresult : DeviceResult (time_window_launch runtime (packed graph) device_id
          max_cycle_length (all_start_events graph)) (count_time_window_start_events_kernel
            (packed graph) (all_start_events graph) width max_cycle_length) (fun _ => True)
              max_cycle_length result := by
        cases h with
        | refused h => exact .refused h
        | empty h => exact .empty h
        | counted h hrun hdone => exact .counted h trivial hrun hdone
      exact hresult.throws (time_window_launch_throws _ _ _)
        (fun hnone k _ _ => window_none hg hids h0 hno hnone k)
          (window_kernel_counts hg hids h0 hno hmin)

end Window

end Results

end CycleEnum.Cuda
