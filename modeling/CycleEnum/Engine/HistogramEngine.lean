import CycleEnum.Core.Process
import CycleEnum.Cuda.QueueHost
import CycleEnum.Dynamic.UpdateHost
import CycleEnum.Dynamic.UpdateTeam

namespace CycleEnum.Engine

open CycleEnum.Cuda (Environment QueueRuntime)
open CycleEnum.Dynamic CycleEnum.Enumeration CycleEnum.OpenMP

-- What the program is built with, and what it runs on.
structure Machine where
  openmp_available : Bool
  cuda : Option QueueRuntime
  environment : Environment

-- What ends a program: an exception that nothing catches, or the end of the process.
inductive Failure where
  | threw (error : Error)
  | terminated
deriving DecidableEq, Repr

def thrown {α : Type} (result : Except Error α) : Except Failure α := result.mapError Failure.threw

def outcome {α : Type} : Outcome α → Except Failure α
  | .returned value => .ok value
  | .threw error => .error (.threw error)
  | .threw_runtime_error what => .error (.threw (.runtime_error what))
  | .terminated => .error .terminated

-- The program prints lines of text.
abbrev Action := Process String Failure

def run {α : Type} (result : Except Error α) : Action α := Process.settled (thrown result)

-- Some result of a call to the device.
def on_device {α : Type} (results : Except Error α → Prop) : Action α :=
  Process.picked fun found => ∃ result, results result ∧ found = thrown result

section Rules

variable {α : Type} {shows : String → Prop} {post : α → Prop} {fails : Failure → Prop}

theorem settles_thrown {result : Except Error α}
    (h : Process.Settles post (fun error => fails (.threw error)) result) :
    Process.Settles post fails (thrown result) := by
  cases result with
  | ok value => exact h
  | error error => exact h

theorem run_ensures {result : Except Error α}
    (h : Process.Settles post (fun error => fails (.threw error)) result) :
    (run result).Ensures shows post fails := .settled (settles_thrown h)

theorem on_device_ensures {results : Except Error α → Prop}
    (h : ∀ result, results result → Process.Settles post (fun error => fails (.threw error)) result) :
    (on_device results).Ensures shows post fails := by
  refine .picked fun found hfound => ?_
  obtain ⟨result, hresult, rfl⟩ := hfound
  exact settles_thrown (h result hresult)

theorem run_yields {result : Except Error α} {value : α} (h : result = .ok value) :
    (run result).Yields value := by
  rw [h]
  exact .picked rfl

theorem on_device_yields {results : Except Error α → Prop} {value : α} (h : results (.ok value)) :
    (on_device results).Yields value := .picked ⟨_, h, rfl⟩

end Rules

section Engine

def count_histogram := Sequential.count_simple_cycles_johnson

inductive UpdateBackend where
  | Sequential
  | OpenMP
  | Cuda
deriving DecidableEq, Repr

-- What OpenMP may do in the two phases of an update with a team of threads.
structure TeamRuns (threads : Int) (batch : EdgeBatch) where
  deletion_run : TeamRun
  insertion_run : TeamRun
  schedules : 1 < threads →
    IsSchedule threads.toNat (normalize batch).deletions.length deletion_run.schedule ∧
      IsSchedule threads.toNat (normalize batch).insertions.length insertion_run.schedule

-- Each thread of the program keeps its buffer from one call to the next.
def update_histogram (machine : Machine) (backend : UpdateBackend) (initial_graph : DirectedGraph)
    (prior : CycleHistogram) (batch : EdgeBatch) (max_cycle_length : Nat) (threads device_id : Int)
    (buffers : Nat → VisitedBuffer) : Action (CycleHistogram × (Nat → VisitedBuffer)) :=
  match backend with
  | .Sequential => do
      let last ← run (update_static_histogram initial_graph prior batch max_cycle_length (buffers 0))
      return (last.1, Function.update buffers 0 last.2)
  | .OpenMP => Process.picked fun found => ∃ runs : TeamRuns threads batch,
      found = outcome (update_static_histogram_openmp initial_graph prior batch max_cycle_length
        machine.openmp_available threads runs.deletion_run runs.insertion_run buffers)
  | .Cuda => do
      let histogram ← on_device (update_static_histogram_cuda (machine.cuda.map (·.toCudaRuntime))
        initial_graph prior batch max_cycle_length device_id)
      return (histogram, buffers)

end Engine

-- The reasons for which a machine refuses an update that is well formed.
inductive Refused (machine : Machine) (backend : UpdateBackend) (threads device_id : Int) :
    Failure → Prop
  | thread_count (hbackend : backend = .OpenMP) (h : threads ≤ 0) : Refused machine backend threads
      device_id (.threw (.invalid_argument "OpenMP thread count must be positive"))
  | no_openmp (hbackend : backend = .OpenMP) (h : machine.openmp_available = false)
      (hmany : 1 < threads) : Refused machine backend threads device_id
        (.threw (.runtime_error "OpenMP support is not available in this build"))
  | no_cuda (hbackend : backend = .Cuda) (h : machine.cuda = none) : Refused machine backend threads
      device_id (.threw (.runtime_error "CUDA support is not compiled into this build"))
  | device (hbackend : backend = .Cuda) {runtime : QueueRuntime} (h : machine.cuda = some runtime)
      {error : Error} (hdevice : runtime.require_device device_id = .error error) :
      Refused machine backend threads device_id (.threw error)
  | call (hbackend : backend = .Cuda) {runtime : QueueRuntime} (h : machine.cuda = some runtime)
      {failing : Cuda.CudaCall} {text : String} (hgranted : failing.granted)
      (hfails : runtime.failure failing = some text) :
      Refused machine backend threads device_id
        (.threw (.runtime_error (failing.operation ++ " failed: " ++ text)))

section Update

variable {machine : Machine} {backend : UpdateBackend} {graph : DirectedGraph} {batch : EdgeBatch}
  {max_cycle_length : Nat} {threads device_id : Int} {prior : CycleHistogram}
  {buffers : Nat → VisitedBuffer}

-- What is asked of an update: changes that fit, an array that a vector can have, counts that
-- fit, and on a device room.
structure Updatable (backend : UpdateBackend) (graph : DirectedGraph) (batch : EdgeBatch)
    (max_cycle_length : Nat) : Prop where
  valid : graph.Valid
  fits : batch.Fits graph
  few : max_cycle_length + 1 ≤ MAX_PLACES
  counts : CountsFit graph max_cycle_length
  updated_counts : CountsFit (apply_batch graph batch) max_cycle_length
  room : backend = .Cuda → DeviceRoom graph batch max_cycle_length

variable (hg : graph.WellFormed) (hmax : 2 ≤ max_cycle_length)
  (hprior : recount graph max_cycle_length = .ok prior)
  (hclear : ∀ thread, (buffers thread).visited = Flags.none)

-- The new count, and buffers that the next update can use.
def Updated (graph : DirectedGraph) (batch : EdgeBatch) (max_cycle_length : Nat)
    (last : CycleHistogram × (Nat → VisitedBuffer)) : Prop :=
  recount (apply_batch graph batch) max_cycle_length = .ok last.1 ∧
    ∀ thread, (last.2 thread).visited = Flags.none

include hg hmax hprior

theorem counted_of_recount (h : CountsFit graph max_cycle_length) :
    Counted graph max_cycle_length prior := by
  obtain ⟨histogram, hrun, hcounted⟩ := recount_eq hg hmax h
  obtain rfl : histogram = prior := Except.ok.inj (hrun.symm.trans hprior)
  exact hcounted

include hclear

-- One thread returns the new count.
theorem update_sequential (hu : Updatable .Sequential graph batch max_cycle_length) :
    ∃ last, update_static_histogram graph prior batch max_cycle_length (buffers 0) = .ok last ∧
      Updated graph batch max_cycle_length (last.1, Function.update buffers 0 last.2) := by
  have hg' := apply_batch_well_formed hg hu.fits
  obtain ⟨histogram, buffer, hrun, hcounted, hlast⟩ := update_static_histogram_eq hg hmax hu.few
    hu.fits (hu.counts.countable hg) (hu.updated_counts.countable hg')
    (counted_of_recount hg hmax hprior hu.counts) (hclear 0)
  obtain ⟨recounted, hrecount, hcounted'⟩ := recount_eq hg' hmax hu.updated_counts
  refine ⟨(histogram, buffer), hrun, ?_, fun thread => ?_⟩
  · rw [hrecount, hcounted'.unique hcounted]
  · by_cases ht : thread = 0
    · rw [ht]
      simpa using hlast
    · simpa [Function.update_of_ne ht] using hclear thread

-- So does every team that there can be, on any schedules.
theorem update_openmp (hu : Updatable .OpenMP graph batch max_cycle_length) (hthreads : 1 ≤ threads)
    (havailable : machine.openmp_available = true ∨ threads = 1) (runs : TeamRuns threads batch) :
    ∃ last, update_static_histogram_openmp graph prior batch max_cycle_length machine.openmp_available
        threads runs.deletion_run runs.insertion_run buffers = .returned last ∧
      Updated graph batch max_cycle_length last := by
  have hg' := apply_batch_well_formed hg hu.fits
  obtain ⟨updated, buffers', hrun, hcounted, hlast⟩ := update_static_histogram_team_returns hg hu.fits
    hmax hu.few (hu.counts.countable hg) (hu.updated_counts.countable hg')
    (counted_of_recount hg hmax hprior hu.counts) hthreads havailable runs.schedules hclear
  obtain ⟨recounted, hrecount, hcounted'⟩ := recount_eq hg' hmax hu.updated_counts
  refine ⟨(updated, buffers'), hrun, ?_, hlast⟩
  rw [hrecount, hcounted'.unique hcounted]

theorem update_openmp_ensures (hu : Updatable .OpenMP graph batch max_cycle_length) :
    (update_histogram machine .OpenMP graph prior batch max_cycle_length threads device_id
      buffers).Ensures (fun _ => False) (Updated graph batch max_cycle_length)
        (Refused machine .OpenMP threads device_id) := by
  have hlong : ¬max_cycle_length < 2 := Nat.not_lt.mpr hmax
  rintro printed result ⟨rfl, runs, rfl⟩
  refine ⟨by simp, ?_⟩
  by_cases hthreads : threads ≤ 0
  · rw [update_static_histogram_openmp, if_neg hlong, resolve_thread_count, if_pos hthreads]
    exact .thread_count rfl hthreads
  by_cases havailable : machine.openmp_available = true ∨ threads = 1
  · obtain ⟨last, hrun, hupdated⟩ := update_openmp hg hmax hprior hclear hu (by omega) havailable runs
    rw [hrun]
    exact hupdated
  · obtain ⟨hnone, hmany⟩ := not_or.mp havailable
    have hnone : machine.openmp_available = false := by simpa using hnone
    have hmany : 1 < threads := by omega
    rw [update_static_histogram_openmp, if_neg hlong, resolve_thread_count, if_neg hthreads,
      if_pos (by simp [hnone, hmany])]
    exact .no_openmp rfl hnone hmany

theorem update_cuda_ensures (hu : Updatable .Cuda graph batch max_cycle_length) :
    (update_histogram machine .Cuda graph prior batch max_cycle_length threads device_id
      buffers).Ensures (fun _ => False) (Updated graph batch max_cycle_length)
        (Refused machine .Cuda threads device_id) := by
  have hlong : ¬max_cycle_length < 2 := Nat.not_lt.mpr hmax
  have hdevice : ∀ result, update_static_histogram_cuda (machine.cuda.map (·.toCudaRuntime)) graph
      prior batch max_cycle_length device_id result →
        Process.Settles
          (fun histogram => recount (apply_batch graph batch) max_cycle_length = .ok histogram)
          (fun error => Refused machine .Cuda threads device_id (.threw error)) result := by
    intro result hrun
    cases hcuda : machine.cuda with
    | none =>
        rw [hcuda] at hrun
        unfold update_static_histogram_cuda at hrun
        rw [if_neg hlong] at hrun
        rw [hrun]
        exact .no_cuda rfl hcuda
    | some runtime =>
        rw [hcuda, Option.map_some] at hrun
        cases hfound : runtime.require_device device_id with
        | error error =>
            rw [update_static_histogram_cuda_iff hmax, update_on_device, hfound] at hrun
            rw [hrun]
            exact .device rfl hcuda hfound
        | ok _ =>
            obtain ⟨updated, hrecount, hdelta⟩ := recount_eq (apply_batch_well_formed hg hu.fits) hmax
              hu.updated_counts
            rcases device_update_cases hg hu.valid hu.fits hmax (hu.room rfl) hu.counts
              hu.updated_counts hprior hfound hrun with
              ⟨call, text, hgranted, hfails, rfl⟩ | hresult
            · exact .call rfl hcuda hgranted hfails
            · rw [hresult, hrecount]
              rfl
  have hcall : (on_device (update_static_histogram_cuda (machine.cuda.map (·.toCudaRuntime)) graph prior
      batch max_cycle_length device_id)).Ensures (fun _ => False)
        (fun histogram => recount (apply_batch graph batch) max_cycle_length = .ok histogram)
        (Refused machine .Cuda threads device_id) := on_device_ensures hdevice
  exact hcall.bind fun histogram hrecount => .pure ⟨hrecount, hclear⟩

-- On every backend an update comes to what a full count of the new graph gives, or the
-- machine refuses it.
theorem update_histogram_ensures (hu : Updatable backend graph batch max_cycle_length) :
    (update_histogram machine backend graph prior batch max_cycle_length threads device_id
      buffers).Ensures (fun _ => False) (Updated graph batch max_cycle_length)
        (Refused machine backend threads device_id) := by
  cases backend with
  | Sequential =>
      obtain ⟨last, hrun, hupdated⟩ := update_sequential hg hmax hprior hclear hu
      unfold update_histogram
      dsimp only
      rw [hrun]
      exact Process.Ensures.bind (run_ensures (Eq.refl last)) fun value hvalue =>
        .pure (hvalue ▸ hupdated)
  | OpenMP => exact update_openmp_ensures hg hmax hprior hclear hu
  | Cuda => exact update_cuda_ensures hg hmax hprior hclear hu

end Update

end CycleEnum.Engine
