import CycleEnum.Engine.HistogramEngine

namespace CycleEnum.Engine

open CycleEnum.Dynamic (DirectedGraph EdgeBatch VisitedBuffer apply_batch apply_batch_valid
  apply_batch_well_formed empty_graph empty_graph_well_formed exists_device_update recount
  sample_streamable)
open CycleEnum.Enumeration CycleEnum.OpenMP

section Serves

variable {machine : Machine} {backend : UpdateBackend} {graph : DirectedGraph} {batch : EdgeBatch}
  {max_cycle_length : Nat} {threads device_id : Int} {prior : CycleHistogram}
  {buffers : Nat → VisitedBuffer}

-- The machine has what the backend needs, and it works.
def Machine.Serves (machine : Machine) (threads device_id : Int) : UpdateBackend → Prop
  | .Sequential => True
  | .OpenMP => 1 ≤ threads ∧ (machine.openmp_available = true ∨ threads = 1)
  | .Cuda => ∃ runtime, machine.cuda = some runtime ∧
      runtime.require_device device_id = .ok () ∧ runtime.toCudaRuntime.Works

theorem Machine.Serves.not_refused (h : machine.Serves threads device_id backend) {failure : Failure} :
    ¬Refused machine backend threads device_id failure := by
  intro hrefused
  cases hrefused with
  | thread_count hbackend hfew =>
      subst hbackend
      have := h.1
      omega
  | no_openmp hbackend hnone hmany =>
      subst hbackend
      rcases h.2 with havailable | hone
      · rw [hnone] at havailable
        cases havailable
      · omega
  | no_cuda hbackend hnone =>
      subst hbackend
      obtain ⟨runtime, hsome, -⟩ := h
      rw [hnone] at hsome
      cases hsome
  | device hbackend hcuda hdevice =>
      subst hbackend
      obtain ⟨runtime, hsome, hvisible, -⟩ := h
      obtain rfl := Option.some.inj (hcuda.symm.trans hsome)
      rw [hvisible] at hdevice
      cases hdevice
  | call hbackend hcuda hgranted hfails =>
      subst hbackend
      obtain ⟨runtime, hsome, -, hworks⟩ := h
      obtain rfl := Option.some.inj (hcuda.symm.trans hsome)
      rw [hworks _ hgranted] at hfails
      cases hfails

-- One thread that takes every change in turn.
def single_run (changes : Nat) : Dynamic.TeamRun :=
  ⟨(List.range changes).map fun change => (0, change), id⟩

theorem exists_team_runs (threads : Int) (batch : EdgeBatch) : Nonempty (TeamRuns threads batch) :=
  ⟨⟨single_run _, single_run _, fun hmany =>
    ⟨is_schedule_single (by omega) _, is_schedule_single (by omega) _⟩⟩⟩

theorem exists_update (hg : graph.WellFormed) (hmax : 2 ≤ max_cycle_length)
    (hprior : recount graph max_cycle_length = .ok prior)
    (hclear : ∀ thread, (buffers thread).visited = Flags.none)
    (hu : Updatable backend graph batch max_cycle_length)
    (hserves : machine.Serves threads device_id backend) :
    ∃ last, (update_histogram machine backend graph prior batch max_cycle_length threads device_id
      buffers).Yields last := by
  cases backend with
  | Sequential =>
      obtain ⟨last, hrun, -⟩ := update_sequential hg hmax hprior hclear hu
      exact ⟨_, .bind (run_yields hrun) (.pure _)⟩
  | OpenMP =>
      obtain ⟨runs⟩ := exists_team_runs threads batch
      obtain ⟨last, hrun, -⟩ := update_openmp hg hmax hprior hclear hu hserves.1 hserves.2 runs
      exact ⟨last, .picked ⟨runs, (congrArg outcome hrun).symm⟩⟩
  | Cuda =>
      obtain ⟨runtime, hcuda, hdevice, hworks⟩ := hserves
      obtain ⟨updated, hrun⟩ := exists_device_update hg hu.valid hu.fits hmax (hu.room rfl) hu.counts
        hu.updated_counts hprior hdevice hworks
      have hcall : (on_device (Dynamic.update_static_histogram_cuda (machine.cuda.map
          (·.toCudaRuntime)) graph prior batch max_cycle_length device_id)).Yields updated := by
        rw [hcuda]
        exact on_device_yields hrun
      exact ⟨_, hcall.bind (.pure _)⟩

end Serves

section Stream

-- An update that a caller asks for, on the backend that it picks for it.
structure Request where
  backend : UpdateBackend
  threads : Int
  device_id : Int
  batch : EdgeBatch
deriving DecidableEq, Repr

-- What the caller keeps from one update to the next.
structure StreamState where
  graph : DirectedGraph
  histogram : CycleHistogram
  buffers : Nat → VisitedBuffer

def update_step (machine : Machine) (max_cycle_length : Nat) (state : StreamState)
    (request : Request) : Action StreamState := do
  let last ← update_histogram machine request.backend state.graph state.histogram request.batch
    max_cycle_length request.threads request.device_id state.buffers
  return ⟨apply_batch state.graph request.batch, last.1, last.2⟩

-- Each update meets a graph that it fits.
def Streamable (max_cycle_length : Nat) : DirectedGraph → List Request → Prop
  | _, [] => True
  | graph, request :: requests => Updatable request.backend graph request.batch max_cycle_length ∧
      Streamable max_cycle_length (apply_batch graph request.batch) requests

structure UpToDate (max_cycle_length : Nat) (state : StreamState) : Prop where
  well_formed : state.graph.WellFormed
  histogram : recount state.graph max_cycle_length = .ok state.histogram
  clear : ∀ thread, (state.buffers thread).visited = Flags.none

variable {machine : Machine} {max_cycle_length : Nat} {state : StreamState} {request : Request}
  {requests : List Request}

theorem update_step_ensures (hmax : 2 ≤ max_cycle_length) (hstate : UpToDate max_cycle_length state)
    (hu : Updatable request.backend state.graph request.batch max_cycle_length) :
    (update_step machine max_cycle_length state request).Ensures (fun _ => False)
      (fun next => next.graph = apply_batch state.graph request.batch ∧ UpToDate max_cycle_length next)
      (Refused machine request.backend request.threads request.device_id) := by
  have hg := hstate.well_formed
  refine (update_histogram_ensures hg hmax hstate.histogram hstate.clear hu).bind fun last hlast =>
    .pure ⟨rfl, apply_batch_well_formed hg hu.fits, hlast.1, hlast.2⟩

theorem exists_update_step (hmax : 2 ≤ max_cycle_length) (hstate : UpToDate max_cycle_length state)
    (hu : Updatable request.backend state.graph request.batch max_cycle_length)
    (hserves : machine.Serves request.threads request.device_id request.backend) :
    ∃ next, (update_step machine max_cycle_length state request).Yields next := by
  obtain ⟨last, hrun⟩ := exists_update hstate.well_formed hmax hstate.histogram hstate.clear hu hserves
  exact ⟨_, hrun.bind (.pure _)⟩

theorem stream_ensures (hmax : 2 ≤ max_cycle_length) (hstate : UpToDate max_cycle_length state)
    (h : Streamable max_cycle_length state.graph requests) :
    (requests.foldlM (update_step machine max_cycle_length) state).Ensures (fun _ => False)
      (fun last => last.graph = (requests.map (·.batch)).foldl apply_batch state.graph ∧
        UpToDate max_cycle_length last)
      fun failure => ∃ request ∈ requests,
        Refused machine request.backend request.threads request.device_id failure := by
  induction requests generalizing state with
  | nil => exact .pure ⟨rfl, hstate⟩
  | cons request requests ih =>
      obtain ⟨hu, hrest⟩ := h
      rw [List.foldlM_cons]
      refine .bind ((update_step_ensures hmax hstate hu).weaken (fun _ => id) (fun _ => id)
        fun failure hrefused => ⟨request, List.mem_cons_self, hrefused⟩) fun next hnext => ?_
      obtain ⟨hgraph, hnext⟩ := hnext
      refine (ih hnext (hgraph ▸ hrest)).weaken (fun _ => id) (fun last hlast => ?_)
        fun failure hfailure => ?_
      · exact ⟨by rw [hlast.1, hgraph, List.map_cons, List.foldl_cons], hlast.2⟩
      · obtain ⟨other, ho, hrefused⟩ := hfailure
        exact ⟨other, List.mem_cons_of_mem _ ho, hrefused⟩

theorem exists_stream (hmax : 2 ≤ max_cycle_length) (hstate : UpToDate max_cycle_length state)
    (h : Streamable max_cycle_length state.graph requests)
    (hserves : ∀ request ∈ requests,
      machine.Serves request.threads request.device_id request.backend) :
    ∃ last, (requests.foldlM (update_step machine max_cycle_length) state).Yields last := by
  induction requests generalizing state with
  | nil => exact ⟨state, .pure state⟩
  | cons request requests ih =>
      obtain ⟨hu, hrest⟩ := h
      obtain ⟨next, hstep⟩ := exists_update_step hmax hstate hu (hserves request List.mem_cons_self)
      obtain ⟨hgraph, hnext⟩ := hstep.value (update_step_ensures hmax hstate hu)
      obtain ⟨last, hrun⟩ := ih hnext (hgraph ▸ hrest) fun other ho =>
        hserves other (List.mem_cons_of_mem _ ho)
      exact ⟨last, hstep.bind hrun⟩

-- Whatever backends a caller picks for its updates, and whatever the schedules of the teams
-- and the orders on the device are, the histogram stays what a full count gives. The machine
-- may refuse an update, and one that serves all of them refuses none.
theorem update_histogram_stream_exact (hmax : 2 ≤ max_cycle_length)
    (hstate : UpToDate max_cycle_length state)
    (h : Streamable max_cycle_length state.graph requests) :
    (requests.foldlM (update_step machine max_cycle_length) state).Ensures (fun _ => False)
      (fun last => last.graph = (requests.map (·.batch)).foldl apply_batch state.graph ∧
        recount last.graph max_cycle_length = .ok last.histogram)
      (fun failure => ∃ request ∈ requests,
        Refused machine request.backend request.threads request.device_id failure) ∧
    ((∀ request ∈ requests, machine.Serves request.threads request.device_id request.backend) →
      (∃ last, (requests.foldlM (update_step machine max_cycle_length) state).Yields last) ∧
      ∀ printed failure, ¬requests.foldlM (update_step machine max_cycle_length) state printed
        (.error failure)) := by
  have hensures := @stream_ensures machine _ _ _ hmax hstate h
  refine ⟨hensures.weaken (fun _ => id) (fun last hlast => ⟨hlast.1, hlast.2.histogram⟩)
    fun _ => id, fun hserves => ⟨exists_stream hmax hstate h hserves, fun printed failure hrun => ?_⟩⟩
  obtain ⟨-, request, hm, hrefused⟩ := hensures _ _ hrun
  exact (hserves request hm).not_refused hrefused

-- The device inserts three edges, and a team of two threads changes some of them.
def sample_requests : List Request :=
  [⟨.Cuda, 1, 0, ⟨[], [⟨2, 0⟩, ⟨0, 1⟩, ⟨1, 2⟩]⟩⟩,
    ⟨.OpenMP, 2, 0, ⟨[⟨1, 2⟩, ⟨0, 1⟩], [⟨0, 1⟩, ⟨1, 0⟩]⟩⟩]

def sample_machine : Machine := ⟨true, some Cuda.small_device, Cuda.small_blocks⟩

theorem empty_graph_valid : empty_graph.Valid := ⟨⟨rfl, rfl, by decide, rfl⟩, by decide, by decide⟩

theorem sample_start : UpToDate 3 ⟨empty_graph, ∅, fun _ => ⟨0, Flags.none⟩⟩ :=
  ⟨empty_graph_well_formed, by decide +kernel, fun _ => rfl⟩

theorem sample_requests_streamable : Streamable 3 empty_graph sample_requests := by
  obtain ⟨hfit, hb, hfit', hb', hfit''⟩ := sample_streamable
  exact ⟨⟨empty_graph_valid, hb, by decide, hfit, hfit', fun _ => ⟨by decide, by decide, by decide, by decide⟩⟩,
    ⟨apply_batch_valid empty_graph_valid hb.vertices, hb', by decide, hfit', hfit'',
      fun h => by cases h⟩, trivial⟩

theorem sample_machine_serves {requests : List Request}
    (h : ∀ request ∈ requests, (request.backend = .OpenMP → request.threads = 2) ∧
      request.device_id = 0) :
    ∀ request ∈ requests, sample_machine.Serves request.threads request.device_id request.backend := by
  rintro ⟨backend, threads, device_id, batch⟩ hm
  obtain ⟨hthreads, rfl⟩ := h _ hm
  cases backend with
  | Sequential => trivial
  | OpenMP =>
      obtain rfl : threads = 2 := hthreads rfl
      exact ⟨by simp, Or.inl rfl⟩
  | Cuda => exact ⟨_, rfl, rfl, Cuda.working_runtime_works⟩

theorem update_histogram_stream_exact_sample :
    ∃ last, (sample_requests.foldlM (update_step sample_machine 3)
        ⟨empty_graph, ∅, fun _ => ⟨0, Flags.none⟩⟩).Yields last ∧
      recount last.graph 3 = .ok last.histogram := by
  have hexact := @update_histogram_stream_exact sample_machine 3 _ _ (by decide) sample_start
    sample_requests_streamable
  obtain ⟨⟨last, hrun⟩, -⟩ := hexact.2 (sample_machine_serves (by decide))
  exact ⟨last, hrun, (hrun.value hexact.1).2⟩

end Stream

end CycleEnum.Engine
