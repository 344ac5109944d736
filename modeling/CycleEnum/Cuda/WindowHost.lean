import CycleEnum.Cuda.Runtime
import CycleEnum.Cuda.WindowTheorems
import CycleEnum.Sequential.WindowErrors

namespace CycleEnum.Cuda

open Parallel
open CycleEnum.Sequential (Parsed Start count_time_window_cycles_bruteforce
  count_time_window_cycles_bruteforce_rejects_iff mem_starts starts view_of window_instances)

def validate_max_cycle_length (max_cycle_length : Nat) : Except Error Unit :=
  if max_cycle_length < 2 then .error (.invalid_argument "max_cycle_length must be at least 2")
  else .ok ()

def validate_window_width (window_width : Int) : Except Error Unit :=
  if window_width < 0 then .error (.invalid_argument "window_width must be non-negative") else .ok ()

section Host

variable (runtime : CudaRuntime)

-- The calls of the device function before the launch, on either side of the check of the
-- stacks' size, and behind the launch.
def time_window_uploads (graph : CudaGraphData) (device_id : Int) (max_cycle_length : Nat)
    (start_events : List CudaStartEvent) : List CudaCall :=
  .set_device device_id :: upload_graph graph true ++ device_buffer 16 start_events.length ++
    device_buffer 8 (max_cycle_length + 1)

def time_window_stacks (max_cycle_length per_thread_stack : Nat)
    (start_events : List CudaStartEvent) : List CudaCall :=
  device_buffer 4 per_thread_stack ++ device_buffer 8 per_thread_stack ++
    copy_values 16 start_events.length "copy start events" ++
    [.memset (8 * (max_cycle_length + 1)) "clear histogram"]

def time_window_finish (max_cycle_length blocks shared_bytes : Nat) : List CudaCall :=
  [.launch blocks 128 shared_bytes "count_time_window_start_events_kernel launch",
    .synchronize "count_time_window_start_events_kernel synchronize"] ++
    copy_values 8 (max_cycle_length + 1) "copy histogram"

-- The device function without the kernel: the launch it makes, if it makes one.
def time_window_launch (graph : CudaGraphData) (device_id : Int) (max_cycle_length : Nat)
    (start_events : List CudaStartEvent) : Except Error (Option Launch) := do
  if graph.vertex_count = 0 ∨ graph.edge_count = 0 ∨ graph.timestamp_count = 0 then return none
  if max_cycle_length > INT_MAX then
    throw (.overflow_error "max_cycle_length exceeds CUDA kernel limit")
  if start_events = [] then return none
  runtime.make (time_window_uploads graph device_id max_cycle_length start_events)
  let per_thread_stack ← checked_stack_slots start_events.length max_cycle_length "time-window"
  let _ ← checked_allocation_count per_thread_stack "path stack"
  let _ ← checked_allocation_count per_thread_stack "cursor stack"
  runtime.make (time_window_stacks max_cycle_length per_thread_stack start_events)
  let blocks ← checked_grid_blocks start_events.length 128 "start event count"
  let shared_bytes ← shared_histogram_bytes max_cycle_length
  runtime.make (time_window_finish max_cycle_length blocks shared_bytes)
  return some ⟨128, blocks⟩

-- The results that the device function can have, one for each finished run of the kernel.
inductive count_time_window_cycles_johnson_device (graph : CudaGraphData) (device_id : Int)
    (window_width : Int) (max_cycle_length : Nat) (start_events : List CudaStartEvent) :
    Except Error CycleHistogram → Prop
  | refused {error : Error}
      (h : time_window_launch runtime graph device_id max_cycle_length start_events = .error error) :
      count_time_window_cycles_johnson_device graph device_id window_width max_cycle_length
        start_events (.error error)
  | empty (h : time_window_launch runtime graph device_id max_cycle_length start_events = .ok none) :
      count_time_window_cycles_johnson_device graph device_id window_width max_cycle_length
        start_events (.ok ∅)
  | counted {launch : Launch}
      (h : time_window_launch runtime graph device_id max_cycle_length start_events =
        .ok (some launch))
      {block_histograms : Nat → Nat → Nat} {arrays : Stacks} {schedule : List Nat}
      {grid : Grid WindowRegister Stacks} {trace : List (Nat × Event)}
      (hrun : (count_time_window_start_events_kernel graph start_events window_width
        max_cycle_length).run launch max_cycle_length schedule
          (Grid.initial launch block_histograms arrays) = some (grid, trace))
      (hdone : grid.Finished launch) :
      count_time_window_cycles_johnson_device graph device_id window_width max_cycle_length
        start_events (read_histogram max_cycle_length grid.histogram)

-- What the host function checks and builds before it calls the device function.
def time_window_input (graph : GraphView) (device_id : Int) (window_width : Int)
    (max_cycle_length : Nat) : Except Error (CudaGraphData × List CudaStartEvent) := do
  validate_max_cycle_length max_cycle_length
  validate_window_width window_width
  runtime.require_device device_id
  let start_events ← build_start_events graph
  let data ← pack_graph_for_cuda graph
  return (data, start_events)

def count_time_window_cycles_johnson (graph : GraphView) (device_id : Int) (window_width : Int)
    (max_cycle_length : Nat) (result : Except Error CycleHistogram) : Prop :=
  match time_window_input runtime graph device_id window_width max_cycle_length with
  | .error error => result = .error error
  | .ok (data, start_events) => count_time_window_cycles_johnson_device runtime data device_id
      window_width max_cycle_length start_events result

end Host

-- All calls of a run that ends well.
def time_window_calls (graph : CudaGraphData) (device_id : Int) (max_cycle_length : Nat)
    (start_events : List CudaStartEvent) : List CudaCall :=
  time_window_uploads graph device_id max_cycle_length start_events ++
    (time_window_stacks max_cycle_length (start_events.length * max_cycle_length) start_events ++
      time_window_finish max_cycle_length ((start_events.length + 127) / 128)
        ((max_cycle_length + 1) * 8))

-- What the device function needs in order to launch the kernel.
structure Launchable (runtime : CudaRuntime) (graph : CudaGraphData) (device_id : Int)
    (max_cycle_length : Nat) (start_events : List CudaStartEvent) : Prop where
  depth : max_cycle_length ≤ INT_MAX
  slots : start_events.length * max_cycle_length ≤ MAX_DEVICE_OFFSET
  blocks : start_events.length ≤ 128 * (2 ^ 32 - 1)
  calls : ∀ call ∈ time_window_calls graph device_id max_cycle_length start_events,
    runtime.failure call = none

section Launch

variable {runtime : CudaRuntime} {graph : CudaGraphData} {device_id : Int} {max_cycle_length : Nat}
  {start_events : List CudaStartEvent}

theorem Launchable.granted (hgrants : runtime.Grants)
    (h : Launchable runtime graph device_id max_cycle_length start_events) :
    (⟨128, (start_events.length + 127) / 128⟩ : Launch).Granted max_cycle_length :=
  granted_launch_iff.mp (hgrants _ (h.calls
    (.launch _ 128 _ "count_time_window_start_events_kernel launch")
    (by simp [time_window_calls, time_window_finish])))

theorem time_window_launch_ok_iff
    (hgraph : ¬(graph.vertex_count = 0 ∨ graph.edge_count = 0 ∨ graph.timestamp_count = 0))
    (hevents : start_events ≠ []) {launch : Option Launch} :
    time_window_launch runtime graph device_id max_cycle_length start_events = .ok launch ↔
      Launchable runtime graph device_id max_cycle_length start_events ∧
        launch = some ⟨128, (start_events.length + 127) / 128⟩ := by
  unfold time_window_launch
  rw [if_neg hgraph]
  by_cases hdepth : max_cycle_length > INT_MAX
  · rw [if_pos hdepth]
    refine iff_of_false (fun h => ?_) fun h => ?_
    · cases h
    · have := h.1.depth
      omega
  rw [if_neg hdepth, if_neg hevents]
  have hshared : shared_histogram_bytes max_cycle_length = .ok ((max_cycle_length + 1) * 8) :=
    if_neg (by
      unfold INT_MAX at hdepth
      omega)
  constructor
  · intro h
    obtain ⟨_, huploads, h⟩ := bind_ok h
    obtain ⟨slots, hslots, h⟩ := bind_ok h
    obtain ⟨hfits, rfl⟩ := checked_stack_slots_eq.mp hslots
    obtain ⟨_, -, h⟩ := bind_ok h
    obtain ⟨_, -, h⟩ := bind_ok h
    obtain ⟨_, hstacks, h⟩ := bind_ok h
    obtain ⟨blocks, hblocks, h⟩ := bind_ok h
    obtain ⟨hfew, rfl⟩ := checked_grid_blocks_eq.mp hblocks
    rw [ok_bind hshared] at h
    obtain ⟨_, hfinish, h⟩ := bind_ok h
    refine ⟨⟨Nat.le_of_not_lt hdepth, hfits, hfew, fun call hcall => ?_⟩, (Except.ok.inj h).symm⟩
    rcases List.mem_append.mp hcall with hcall | hcall
    · exact make_ok_iff.mp huploads call hcall
    rcases List.mem_append.mp hcall with hcall | hcall
    · exact make_ok_iff.mp hstacks call hcall
    · exact make_ok_iff.mp hfinish call hcall
  · intro h
    obtain ⟨⟨-, hfits, hfew, hcalls⟩, rfl⟩ := h
    have hallocation : ∀ label, checked_allocation_count (start_events.length * max_cycle_length) label =
        .ok (start_events.length * max_cycle_length) := fun label => if_neg (by
      unfold MAX_DEVICE_OFFSET at hfits
      omega)
    rw [ok_bind (make_ok_iff.mpr fun call hcall => hcalls call (List.mem_append_left _ hcall)),
      ok_bind (checked_stack_slots_eq.mpr ⟨hfits, rfl⟩), ok_bind (hallocation _),
      ok_bind (hallocation _), ok_bind (make_ok_iff.mpr fun call hcall =>
        hcalls call (List.mem_append_right _ (List.mem_append_left _ hcall))),
      ok_bind (checked_grid_blocks_eq.mpr ⟨hfew, rfl⟩), ok_bind hshared,
      ok_bind (make_ok_iff.mpr fun call hcall =>
        hcalls call (List.mem_append_right _ (List.mem_append_right _ hcall)))]
    rfl

-- A launch ends in a histogram, whatever the threads count.
theorem count_time_window_cycles_johnson_device_returns (hgrants : runtime.Grants)
    {graph : GraphView} (hg : Readable graph)
    {width : Int} (hin : ∀ event ∈ start_events, event.InGraph graph) (hmin : 2 ≤ max_cycle_length)
    (hgraph : ¬((packed graph).vertex_count = 0 ∨ (packed graph).edge_count = 0 ∨
      (packed graph).timestamp_count = 0)) (hevents : start_events ≠ [])
    (hlaunch : Launchable runtime (packed graph) device_id max_cycle_length start_events) :
    ∃ histogram, count_time_window_cycles_johnson_device runtime (packed graph) device_id width
      max_cycle_length start_events (.ok histogram) := by
  have hlen : 0 < start_events.length := List.length_pos_iff.mpr hevents
  have hgranted := hlaunch.granted hgrants
  generalize hl : (⟨128, (start_events.length + 127) / 128⟩ : Launch) = launch at hgranted
  have hpos : 0 < launch.threads := by
    subst hl
    unfold Launch.threads
    dsimp only
    omega
  have hfit : start_events.length * max_cycle_length < 2 ^ 64 := by
    have := hlaunch.slots
    unfold MAX_DEVICE_OFFSET at this
    omega
  have hitems := @window_items graph _ width max_cycle_length launch.threads hg hin hfit hmin
  have hstart : (count_time_window_start_events_kernel (packed graph) start_events width
      max_cycle_length).run launch max_cycle_length []
        (Grid.initial launch (fun _ _ => 0) ⟨fun _ => 0, fun _ => 0⟩) = some (_, []) := rfl
  obtain ⟨schedule, grid, trace, hrun, hdone⟩ := completes_of_items hitems (fun _ _ => trivial) hgranted
    hstart
  have hcounts : ∀ length ≤ max_cycle_length, grid.histogram length ≤ MAX_COUNT := fun length hle => by
    rw [(run_accounted hrun).finished (Launch.block_size_pos hpos) hdone hle]
    exact Nat.le_of_lt_succ (Nat.mod_lt _ (by decide))
  obtain ⟨histogram, hread⟩ := read_histogram_ok hlaunch.depth hcounts
  refine ⟨histogram, ?_⟩
  rw [← hread]
  exact .counted ((time_window_launch_ok_iff hgraph hevents).mpr ⟨hlaunch, hl ▸ rfl⟩) hrun hdone

end Launch

-- Where the sequential search rejects a window or a count that overflows, so does every
-- result of the device.
def RejectsOverflow (runtime : CudaRuntime) (graph : GraphView) (device_id : Int) (width : Int)
    (max_cycle_length : Nat) : Prop :=
  (∃ what, count_time_window_cycles_bruteforce graph width (some max_cycle_length) =
    .error (.overflow_error what)) →
  ∀ result, count_time_window_cycles_johnson runtime graph device_id width max_cycle_length result →
    ∃ error, result = .error error

section Overflow

variable {runtime : CudaRuntime} {graph : GraphView} {device_id : Int} {width : Int}
  {max_cycle_length : Nat}

-- A graph with a start event has something of everything.
theorem graph_of_start (hg : Parsed graph) (hids : graph.vertex_count < 2 ^ 32) {start : Start}
    (hs : start ∈ starts graph) :
    all_start_events graph ≠ [] ∧
      ¬((packed graph).vertex_count = 0 ∨ (packed graph).edge_count = 0 ∨
        (packed graph).timestamp_count = 0) := by
  obtain ⟨rows, hrows⟩ := hg.rows hids
  have hlength := length_all_start_events (simple_graph_of_rows rows).endpoints hrows hids
  have hevents : all_start_events graph ≠ [] := by
    rw [all_start_events_eq]
    exact List.ne_nil_of_mem (List.mem_map_of_mem hs)
  have hpos : 0 < (all_start_events graph).length := List.length_pos_iff.mpr hevents
  obtain ⟨hroot, hedge, -⟩ := mem_starts.mp hs
  have hedges : 0 < graph.outgoing_edges.length :=
    List.length_pos_of_mem (List.mem_of_mem_drop (List.mem_of_mem_take hedge))
  refine ⟨hevents, ?_⟩
  change ¬(graph.vertex_count = 0 ∨ graph.outgoing_edges.length = 0 ∨ graph.timestamp_count = 0)
  omega

theorem pack_of_launchable (hg : Parsed graph) (hids : graph.vertex_count < 2 ^ 32)
    (hlaunch : Launchable runtime (packed graph) device_id max_cycle_length
      (all_start_events graph)) : pack_graph_for_cuda graph = .ok (packed graph) := by
  obtain ⟨rows, hrows⟩ := hg.rows hids
  have hends := (simple_graph_of_rows rows).endpoints
  have hlength := length_all_start_events hends hrows hids
  have hfew := hlaunch.blocks
  refine pack_graph_for_cuda_eq hrows (faithful_of_build hends hrows) ?_ ?_
  · unfold MAX_DEVICE_OFFSET
    omega
  · unfold MAX_DEVICE_OFFSET
    omega

theorem time_window_input_ok {found : CudaGraphData × List CudaStartEvent}
    (h : time_window_input runtime graph device_id width max_cycle_length = .ok found) :
    2 ≤ max_cycle_length ∧ graph.vertex_count < 2 ^ 32 ∧
      found = (packed graph, all_start_events graph) := by
  obtain ⟨_, hlength, h⟩ := bind_ok h
  obtain ⟨_, -, h⟩ := bind_ok h
  obtain ⟨_, -, h⟩ := bind_ok h
  obtain ⟨start_events, hbuild, h⟩ := bind_ok h
  obtain ⟨data, hpack, h⟩ := bind_ok h
  have hmin : 2 ≤ max_cycle_length := by
    by_contra hshort
    rw [validate_max_cycle_length, if_pos (by omega)] at hlength
    cases hlength
  have hids : graph.vertex_count < 2 ^ 32 := by
    by_contra hcount
    exact build_start_events_endless (Nat.le_of_not_lt hcount) start_events hbuild
  rw [build_start_events_eq hids] at hbuild
  refine ⟨hmin, hids, ?_⟩
  rw [← Except.ok.inj h, (pack_graph_for_cuda_ok hpack).1, ← Except.ok.inj hbuild]

theorem time_window_input_eq (hids : graph.vertex_count < 2 ^ 32) (h0 : 0 ≤ width) (hmin : 2 ≤ max_cycle_length)
    (hdevice : runtime.require_device device_id = .ok ())
    (hpack : pack_graph_for_cuda graph = .ok (packed graph)) :
    time_window_input runtime graph device_id width max_cycle_length =
      .ok (packed graph, all_start_events graph) := by
  have hlength : validate_max_cycle_length max_cycle_length = .ok () := if_neg (by omega)
  have hwidth : validate_window_width width = .ok () := if_neg (by omega)
  rw [time_window_input, ok_bind hlength, ok_bind hwidth, ok_bind hdevice,
    ok_bind (build_start_events_eq hids), ok_bind hpack]
  rfl

-- With something to search, there is a histogram exactly when the kernel is launched.
theorem count_time_window_cycles_johnson_returns_iff (hg : Parsed graph)
    (hids : graph.vertex_count < 2 ^ 32) (h0 : 0 ≤ width) (hmin : 2 ≤ max_cycle_length)
    (hdevice : runtime.require_device device_id = .ok ()) (hgrants : runtime.Grants)
    {start : Start} (hs : start ∈ starts graph) :
    (∃ histogram, count_time_window_cycles_johnson runtime graph device_id width max_cycle_length
      (.ok histogram)) ↔
      Launchable runtime (packed graph) device_id max_cycle_length (all_start_events graph) := by
  obtain ⟨hevents, hgraph⟩ := graph_of_start hg hids hs
  unfold count_time_window_cycles_johnson
  constructor
  · intro h
    obtain ⟨histogram, h⟩ := h
    cases hinput : time_window_input runtime graph device_id width max_cycle_length with
    | error error =>
        rw [hinput] at h
        cases h
    | ok found =>
        obtain ⟨-, -, rfl⟩ := time_window_input_ok hinput
        rw [hinput] at h
        dsimp only at h
        generalize hresult : (Except.ok histogram : Except Error CycleHistogram) = result at h
        cases h with
        | refused h => cases hresult
        | empty h => cases ((time_window_launch_ok_iff hgraph hevents).mp h).2
        | counted h hrun hdone => exact ((time_window_launch_ok_iff hgraph hevents).mp h).1
  · intro hlaunch
    rw [time_window_input_eq hids h0 hmin hdevice (pack_of_launchable hg hids hlaunch)]
    exact count_time_window_cycles_johnson_device_returns hgrants (readable_of_parsed hg hids)
      (all_start_events_in_graph (hg.well_formed hids)) hmin hgraph hevents hlaunch

-- From 2^32 vertices on the start events are never all built.
theorem count_time_window_cycles_johnson_endless (hcount : 2 ^ 32 ≤ graph.vertex_count)
    {result : Except Error CycleHistogram}
    (h : count_time_window_cycles_johnson runtime graph device_id width max_cycle_length result) :
    ∃ error, result = .error error := by
  unfold count_time_window_cycles_johnson at h
  cases hinput : time_window_input runtime graph device_id width max_cycle_length with
  | error error =>
      rw [hinput] at h
      exact ⟨error, h⟩
  | ok found => exact absurd (time_window_input_ok hinput).2.1 (Nat.not_lt.mpr hcount)

-- Nothing checks the windows before the launch, so the device rejects an overflow only
-- where it cannot launch the kernel at all, or where the start events never end and an
-- allocation fails.
theorem count_time_window_cycles_johnson_rejects_iff (hg : Parsed graph) (h0 : 0 ≤ width)
    (hmin : 2 ≤ max_cycle_length) (hdevice : runtime.require_device device_id = .ok ())
    (hgrants : runtime.Grants) : RejectsOverflow runtime graph device_id width max_cycle_length ↔
      ((∀ start ∈ starts graph, ¬start.Overflows graph width) ∧
        ∀ k, (window_instances graph width (some max_cycle_length) k).ncard ≤ MAX_COUNT) ∨
      ¬Launchable runtime (packed graph) device_id max_cycle_length (all_start_events graph) ∨
      2 ^ 32 ≤ graph.vertex_count := by
  by_cases hcount : 2 ^ 32 ≤ graph.vertex_count
  · exact iff_of_true (fun _ _ => count_time_window_cycles_johnson_endless hcount)
      (Or.inr (Or.inr hcount))
  rw [or_iff_left hcount]
  have hids := Nat.lt_of_not_le hcount
  have hw := hg.well_formed hids
  have hreject : (∃ what, count_time_window_cycles_bruteforce graph width (some max_cycle_length) =
      .error (.overflow_error what)) ↔ _ :=
    count_time_window_cycles_bruteforce_rejects_iff hw h0 (by simpa using hmin)
  unfold RejectsOverflow
  by_cases hrejects : ∃ what, count_time_window_cycles_bruteforce graph width (some max_cycle_length) =
      .error (.overflow_error what)
  · have hnot : ¬((∀ start ∈ starts graph, ¬start.Overflows graph width) ∧
        ∀ k, (window_instances graph width (some max_cycle_length) k).ncard ≤ MAX_COUNT) := by
      intro hfits
      rcases hreject.mp hrejects with ⟨start, hs, hover⟩ | ⟨k, hmany⟩
      · exact hfits.1 start hs hover
      · exact absurd (hfits.2 k) (by omega)
    have hstart : ∃ start, start ∈ starts graph := by
      rcases hreject.mp hrejects with ⟨start, hs, -⟩ | ⟨k, hmany⟩
      · exact ⟨start, hs⟩
      · obtain ⟨found, hfound⟩ := Set.nonempty_of_ncard_ne_zero (show
          (window_instances graph width (some max_cycle_length) k).ncard ≠ 0 by omega)
        exact ⟨found.1, hfound.1⟩
    obtain ⟨start, hs⟩ := hstart
    have hreturns := count_time_window_cycles_johnson_returns_iff hg hids h0 hmin hdevice hgrants hs
    rw [or_iff_right hnot, imp_iff_right hrejects, ← hreturns]
    constructor
    · intro hall hexists
      obtain ⟨histogram, hok⟩ := hexists
      obtain ⟨error, herror⟩ := hall _ hok
      cases herror
    · intro hnone result hresult
      cases result with
      | error error => exact ⟨error, rfl⟩
      | ok histogram => exact absurd ⟨histogram, hresult⟩ hnone
  · refine iff_of_true (fun h => absurd h hrejects) (Or.inl ⟨fun start hs hover => ?_, fun k => ?_⟩)
    · exact hrejects (hreject.mpr (Or.inl ⟨start, hs, hover⟩))
    · by_contra hmany
      exact hrejects (hreject.mpr (Or.inr ⟨k, by omega⟩))

end Overflow

-- One device, on which the calls work that it grants.
def working_runtime : CudaRuntime :=
  ⟨1, fun call => if call.granted then none else some "invalid argument"⟩

theorem working_runtime_works : working_runtime.Works := fun _ hcall => if_pos hcall

theorem working_runtime_grants : working_runtime.Grants := fun call hnone => by
  by_contra hcall
  simp [working_runtime, hcall] at hnone

-- The window of the latest timestamp overflows.
def late_rows : List RawTemporalEdge := [⟨0, 1, 1⟩, ⟨1, 0, 2⟩, ⟨0, 1, MAX_TIMESTAMP⟩]

-- The kernel cannot be launched for so long cycles.
theorem count_time_window_cycles_johnson_rejects_iff_sample :
    RejectsOverflow working_runtime (view_of late_rows) 0 1 (2 ^ 31) :=
  (count_time_window_cycles_johnson_rejects_iff ⟨late_rows, rfl⟩ (by decide) (by decide) rfl
    working_runtime_grants).mpr (Or.inr (Or.inl fun h => absurd h.depth (by decide)))

-- For shorter ones it is launched, and the start event with the late timestamp is missing.
theorem count_time_window_cycles_johnson_misses_overflow :
    Parsed (view_of late_rows) ∧ working_runtime.require_device 0 = .ok () ∧
      count_time_window_cycles_bruteforce (view_of late_rows) 1 (some 2) =
        .error (.overflow_error "time window end overflows timestamp range") ∧
      ¬RejectsOverflow working_runtime (view_of late_rows) 0 1 2 := by
  have hparsed : Parsed (view_of late_rows) := ⟨late_rows, rfl⟩
  have herror : count_time_window_cycles_bruteforce (view_of late_rows) 1 (some 2) =
      .error (.overflow_error "time window end overflows timestamp range") := rfl
  have hstart : (⟨0, ⟨1, 0, 0, 2⟩, 0⟩ : Start) ∈ starts (view_of late_rows) :=
    mem_starts.mpr (by decide)
  have hlaunch : Launchable working_runtime (packed (view_of late_rows)) 0 2
      (all_start_events (view_of late_rows)) :=
    ⟨by decide, by decide, by decide, fun call hcall => working_runtime_works call
      (List.all_eq_true.mp (by simp [time_window_calls, time_window_uploads, time_window_stacks,
        time_window_finish, CudaCall.granted]) call hcall)⟩
  obtain ⟨histogram, hok⟩ := (count_time_window_cycles_johnson_returns_iff hparsed (by decide)
    (show (0 : Int) ≤ 1 by decide) (Nat.le_refl 2) rfl working_runtime_grants hstart).mpr hlaunch
  refine ⟨hparsed, rfl, herror, fun hrejects => ?_⟩
  obtain ⟨error, h⟩ := hrejects ⟨_, herror⟩ _ hok
  cases h

end CycleEnum.Cuda
