import CycleEnum.Cli.Arguments
import CycleEnum.Core.HistogramCsv
import CycleEnum.Core.ReadGraph
import CycleEnum.Cuda.TemporalHost
import CycleEnum.Cuda.WindowHost
import CycleEnum.Dynamic.GraphConversion
import CycleEnum.Engine.HistogramEngine
import CycleEnum.OpenMP.Static
import CycleEnum.OpenMP.TemporalJohnson
import CycleEnum.OpenMP.TemporalReadTarjan
import CycleEnum.Sequential.Johnson
import CycleEnum.Sequential.ReadTarjan
import CycleEnum.Sequential.TemporalReadTarjan

namespace CycleEnum.Cli

open CycleEnum.Dynamic (BatchParams DirectedGraph Draws EdgeBatch VisitedBuffer apply_batch
  build_directed_graph generate_batch to_graph_view)
open CycleEnum.Engine CycleEnum.OpenMP

-- The value of a `std::optional` that the caller takes for granted.
def value_of {α : Type} (option : Option α) : Except Error α :=
  match option with
  | some value => .ok value
  | none => .error .undefined

section Backends

variable (machine : Machine) (graph : GraphView) (options : CycleEnumerationOptions)

def run_sequential : Except Error CycleHistogram :=
  match options.mode with
  | .Simple =>
      match options.algorithm with
      | .Johnson => Sequential.count_simple_cycles_johnson graph options.max_cycle_length
      | .ReadTarjan => Sequential.count_simple_cycles_read_tarjan graph options.max_cycle_length
      | .BruteForce => Sequential.count_simple_cycles_bruteforce graph options.max_cycle_length
  | .SimpleTimeWindow => do
      let time_window ← value_of options.time_window
      match options.algorithm with
      | .Johnson =>
          Sequential.count_time_window_cycles_johnson graph time_window options.max_cycle_length
      | .ReadTarjan =>
          Sequential.count_time_window_cycles_read_tarjan graph time_window options.max_cycle_length
      | .BruteForce =>
          Sequential.count_time_window_cycles_bruteforce graph time_window options.max_cycle_length
  | .Temporal => do
      let time_window ← value_of options.time_window
      match options.algorithm with
      | .Johnson =>
          Sequential.count_temporal_cycles_johnson graph time_window options.max_cycle_length
      | .ReadTarjan =>
          Sequential.count_temporal_cycles_read_tarjan graph time_window options.max_cycle_length
      | .BruteForce =>
          Sequential.count_temporal_cycles_bruteforce graph time_window options.max_cycle_length

-- A count of a team of threads on the schedules that OpenMP may choose for the roots.
def on_team (count : (schedule : List (Nat × Nat)) → Outcome CycleHistogram) :
    Action CycleHistogram :=
  Process.picked fun found => ∃ schedule : List (Nat × Nat), (1 < options.openmp_threads →
      IsSchedule options.openmp_threads.toNat graph.vertex_count schedule) ∧
    found = outcome (count schedule)

def run_openmp : Action CycleHistogram :=
  match options.mode with
  | .Simple =>
      match options.algorithm with
      | .Johnson => on_team graph options (OpenMP.count_simple_cycles_johnson graph
          machine.openmp_available options.openmp_threads options.max_cycle_length)
      | .ReadTarjan => on_team graph options (OpenMP.count_simple_cycles_read_tarjan graph
          machine.openmp_available options.openmp_threads options.max_cycle_length)
      | .BruteForce => run (.error (.logic_error "unsupported OpenMP cycle counting mode"))
  | .Temporal =>
      match options.algorithm with
      | .Johnson => do
          let time_window ← run (value_of options.time_window)
          on_team graph options (TemporalJohnson.count_temporal_cycles_johnson graph time_window
            machine.openmp_available options.openmp_threads options.max_cycle_length)
      | .ReadTarjan => do
          let time_window ← run (value_of options.time_window)
          on_team graph options (TemporalReadTarjan.count_temporal_cycles_read_tarjan graph time_window
            machine.openmp_available options.openmp_threads options.max_cycle_length)
      | .BruteForce => run (.error (.logic_error "unsupported OpenMP cycle counting mode"))
  | .SimpleTimeWindow => run (.error (.logic_error "unsupported OpenMP cycle counting mode"))

-- A host function of the device in a build without CUDA: its own checks come first.
def not_compiled (checks : Except Error Unit) (result : Except Error CycleHistogram) : Prop :=
  result = checks.bind fun _ => .error (.runtime_error "CUDA support is not compiled into this build")

-- `timed` is whether the caller passes a place for the timings.
def run_cuda (scheduler : CudaScheduler) (timed : Bool) : Action CycleHistogram :=
  match options.algorithm, options.max_cycle_length with
  | .Johnson, some max_cycle_length =>
      match options.mode with
      | .Simple => on_device <|
          match machine.cuda, scheduler with
          | some runtime, .WorkQueue => Cuda.count_simple_cycles_johnson_work_queue runtime
              machine.environment timed graph options.cuda_device_id max_cycle_length
          | some runtime, .Naive => Cuda.count_simple_cycles_johnson runtime.toCudaRuntime graph
              options.cuda_device_id max_cycle_length
          | none, _ => not_compiled (Cuda.validate_max_cycle_length max_cycle_length)
      | .SimpleTimeWindow => do
          let time_window ← run (value_of options.time_window)
          on_device <|
            match machine.cuda with
            | some runtime => Cuda.count_time_window_cycles_johnson runtime.toCudaRuntime graph
                options.cuda_device_id time_window max_cycle_length
            | none => not_compiled do
                Cuda.validate_max_cycle_length max_cycle_length
                Cuda.validate_window_width time_window
      | .Temporal => do
          let time_window ← run (value_of options.time_window)
          on_device <|
            match machine.cuda with
            | some runtime => Cuda.count_temporal_cycles_johnson runtime.toCudaRuntime graph
                options.cuda_device_id time_window max_cycle_length
            | none => not_compiled do
                Cuda.validate_max_cycle_length max_cycle_length
                Cuda.validate_window_width time_window
  | _, _ => run (.error (.logic_error "unsupported CUDA cycle counting mode"))

def run_backend (scheduler : CudaScheduler) (timed : Bool) : Action CycleHistogram :=
  match options.execution with
  | .Sequential => run (run_sequential graph options)
  | .OpenMP => run_openmp machine graph options
  | .Cuda => run_cuda machine graph options scheduler timed

end Backends

section Update

def to_update_backend : ExecutionPolicy → UpdateBackend
  | .Sequential => .Sequential
  | .OpenMP => .OpenMP
  | .Cuda => .Cuda

-- The buffers of threads that have not updated anything yet.
def fresh_buffers : Nat → VisitedBuffer := fun _ => ⟨0, Flags.none⟩

-- A conversion that comes to an end.
def build_initial_graph (view : GraphView) : Action DirectedGraph :=
  Process.any fun graph => ∃ fuel, build_directed_graph fuel view = some graph

-- The seed is some state of the generator, of which the draws are the numbers.
def generate_update (view : GraphView) (params : BatchParams) : Action EdgeBatch :=
  on_device fun result => ∃ (draws : Draws) (fuel : Nat), generate_batch draws fuel view params = some result

-- A line with a time.
def print_seconds (label : String) : Action Unit := do
  let seconds ← Process.any fun _ : String => True
  Process.print [label ++ seconds]

def compare_recompute (initial_graph : DirectedGraph) (batch : EdgeBatch) (max_length : Nat)
    (updated : CycleHistogram) : Action Unit := do
  let final_view ← run (to_graph_view (apply_batch initial_graph batch))
  let recomputed ← run (count_histogram final_view (some max_length))
  print_seconds "recompute_seconds="
  Process.print ["match=" ++ if updated = recomputed then "yes" else "no"]

-- The lines go to the error stream.
def run_update (machine : Machine) (view : GraphView) (config : CliConfig) :
    Action CycleHistogram := do
  let max_length ← run (value_of config.options.max_cycle_length)
  let prior ← run (count_histogram view (some max_length))
  let initial_graph ← build_initial_graph view
  let batch ← generate_update view config.batch_params
  let updated ← update_histogram machine (to_update_backend config.options.execution) initial_graph
    prior batch max_length config.options.openmp_threads config.options.cuda_device_id fresh_buffers
  Process.print ["deletions=" ++ toString batch.deletions.length ++ " insertions=" ++
    toString batch.insertions.length]
  print_seconds "update_seconds="
  if config.compare_recompute then
    compare_recompute initial_graph batch max_length updated.1
  return updated.1

end Update

end CycleEnum.Cli
