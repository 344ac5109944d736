import CycleEnum.Core.Options
import CycleEnum.Core.Stream
import CycleEnum.Dynamic.BatchGenerator

namespace CycleEnum.Cli

open CycleEnum.Dynamic (BatchParams)

inductive CudaScheduler where
  | Naive
  | WorkQueue
deriving DecidableEq, Repr

inductive Task where
  | Count
  | Update
deriving DecidableEq, Repr

-- The seed stands beside the other parameters of the batch.
structure CliConfig where
  input_path : String := ""
  options : CycleEnumerationOptions := default_options
  cuda_scheduler : CudaScheduler := .WorkQueue
  task : Task := .Count
  batch_params : BatchParams := ⟨0, 0, none⟩
  batch_seed : Nat := 0
  compare_recompute : Bool := false
  report_timing : Bool := false
  show_help : Bool := false
  show_version : Bool := false
deriving DecidableEq, Repr

def parse_task (value : String) : Option Task :=
  if value = "count" ∨ value = "recompute" then some .Count
  else if value = "update" ∨ value = "incremental" then some .Update
  else none

def parse_cuda_scheduler (value : String) : Option CudaScheduler :=
  if value = "naive" then some .Naive
  else if value = "work-queue" ∨ value = "work_queue" ∨ value = "workqueue" ∨ value = "queue" then
    some .WorkQueue
  else none

def parse_algorithm (value : String) : Option AlgorithmFamily :=
  if value = "johnson" then some .Johnson
  else if value = "read-tarjan" ∨ value = "read_tarjan" ∨ value = "readtarjan" then some .ReadTarjan
  else if value = "brute-force" ∨ value = "bruteforce" ∨ value = "brute_force" then some .BruteForce
  else none

def parse_execution (value : String) : Option ExecutionPolicy :=
  if value = "sequential" ∨ value = "seq" ∨ value = "cpu" then some .Sequential
  else if value = "openmp" ∨ value = "omp" then some .OpenMP
  else if value = "cuda" ∨ value = "gpu" then some .Cuda
  else none

def parse_mode (value : String) : Option CycleMode :=
  if value = "simple" then some .Simple
  else if value = "simple-time-window" ∨ value = "simple_time_window" ∨ value = "time-window" ∨
    value = "window" then some .SimpleTimeWindow
  else if value = "temporal" then some .Temporal
  else none

def is_option (value : String) : Bool := "--".toList.isPrefixOf value.toList

-- What follows an option, if anything does.
def next_value (option : String) (following : Option String) : Except (List String) String :=
  match following with
  | none => .error [option ++ " requires a value"]
  | some value => if is_option value then .error [option ++ " requires a value"] else .ok value

-- `std::from_chars` in base ten on the whole of a text: a minus sign before a type that has
-- signs, no plus sign and no blanks.
def from_chars (signed : Bool) (text : List Char) : Option Int :=
  match text with
  | [] => none
  | c :: digits =>
      if c = '-' then if signed then (natural digits).map (- ·) else none
      else natural (c :: digits)

-- A type of integers by its bounds.
def parse_integer (lowest highest : Int) (value option : String) : Except (List String) Int :=
  match (from_chars (lowest < 0) value.toList).filter fun parsed =>
      lowest ≤ parsed && parsed ≤ highest with
  | some parsed => .ok parsed
  | none => .error [option ++ " expects an integer value"]

def parse_int := parse_integer (-2 ^ 31) (2 ^ 31 - 1)

def parse_timestamp := parse_integer (-2 ^ 63) (2 ^ 63 - 1)

def parse_size := parse_integer 0 (2 ^ 64 - 1)

-- An option of the loop over the arguments that a value follows.
structure ValueOption where
  names : List String
  read : (option value : String) → CliConfig → Except (List String) CliConfig

def word_option {α : Type} (names : List String) (what : String) (parse : String → Option α)
    (set : CliConfig → α → CliConfig) : ValueOption where
  names := names
  read _ value config :=
    match parse value with
    | some word => .ok (set config word)
    | none => .error ["unknown " ++ what ++ ": " ++ value]

def integer_option (names : List String)
    (parse : (value option : String) → Except (List String) Int)
    (set : CliConfig → Int → CliConfig) : ValueOption where
  names := names
  read option value config := (parse value option).map (set config)

def CliConfig.with_options (config : CliConfig)
    (change : CycleEnumerationOptions → CycleEnumerationOptions) : CliConfig :=
  { config with options := change config.options }

def CliConfig.with_batch_params (config : CliConfig) (change : BatchParams → BatchParams) :
    CliConfig :=
  { config with batch_params := change config.batch_params }

def value_options : List ValueOption :=
  [⟨["--input", "-i"], fun _ value config => .ok { config with input_path := value }⟩,
    word_option ["--algorithm", "-a"] "algorithm" parse_algorithm fun config algorithm =>
      config.with_options ({ · with algorithm := algorithm }),
    word_option ["--backend", "--execution", "--policy"] "backend" parse_execution
      fun config execution => config.with_options ({ · with execution := execution }),
    word_option ["--mode", "-m"] "mode" parse_mode fun config mode =>
      config.with_options ({ · with mode := mode }),
    integer_option ["--openmp-threads", "--threads"] parse_int fun config parsed =>
      config.with_options ({ · with openmp_threads := parsed }),
    integer_option ["--cuda-device", "--device"] parse_int fun config parsed =>
      config.with_options ({ · with cuda_device_id := parsed }),
    word_option ["--cuda-scheduler", "--scheduler"] "cuda scheduler" parse_cuda_scheduler
      fun config scheduler => { config with cuda_scheduler := scheduler },
    word_option ["--task"] "task" parse_task fun config task => { config with task := task },
    integer_option ["--deletes", "--deletions"] parse_size fun config parsed =>
      config.with_batch_params ({ · with num_deletions := parsed.toNat }),
    integer_option ["--inserts", "--insertions"] parse_size fun config parsed =>
      config.with_batch_params ({ · with num_insertions := parsed.toNat }),
    integer_option ["--batch-seed"] parse_size fun config parsed =>
      { config with batch_seed := parsed.toNat },
    integer_option ["--batch-locality"] parse_size fun config parsed =>
      config.with_batch_params ({ · with locality_window := some parsed.toNat }),
    integer_option ["--time-window", "--window"] parse_timestamp fun config parsed =>
      config.with_options ({ · with time_window := some parsed }),
    integer_option ["--max-cycle-length", "--max-length"] parse_size fun config parsed =>
      config.with_options ({ · with max_cycle_length := some parsed.toNat })]

-- The loop over the arguments. It ends early at the two options that ask for a text.
def read_options : List String → CliConfig → Except (List String) CliConfig
  | [], config => .ok config
  | option :: rest, config =>
      if option = "--help" ∨ option = "-h" then .ok { config with show_help := true }
      else if option = "--version" then .ok { config with show_version := true }
      else if option = "--compare-recompute" then
        read_options rest { config with compare_recompute := true }
      else if option = "--report-timing" then
        read_options rest { config with report_timing := true }
      else
        match value_options.find? fun value_option => option ∈ value_option.names with
        | none => .error ["unknown option: " ++ option]
        | some value_option =>
            match rest with
            | [] => (next_value option none).map fun _ => config
            | value :: rest => do
                let value ← next_value option (some value)
                read_options rest (← value_option.read option value config)

def validate_cli_supported (options : CycleEnumerationOptions) : List String :=
  (if options.execution = .Cuda then
    (if options.algorithm ≠ .Johnson then ["cuda backend currently supports only johnson"] else []) ++
    (if options.max_cycle_length = none then
      ["cuda backend requires --max-cycle-length for bounded device stacks"] else [])
  else []) ++
  (if options.execution = .OpenMP then
    (if options.algorithm = .BruteForce then
      ["brute-force is only available with sequential backend"] else []) ++
    (if options.mode = .SimpleTimeWindow then
      ["openmp backend does not implement simple-time-window mode yet"] else [])
  else [])

def validate_update (config : CliConfig) : List String :=
  if config.task = .Update then
    (if config.options.mode ≠ .Simple then ["update task currently supports only --mode simple"]
      else []) ++
    (if config.options.max_cycle_length = none then ["update task requires --max-cycle-length"]
      else [])
  else []

-- The checks behind the loop, of which the first that fails speaks.
def check_config (config : CliConfig) : Except (List String) CliConfig :=
  if config.input_path = "" then .error ["--input is required"]
  else if validate_options config.options ≠ [] then .error (validate_options config.options)
  else if validate_cli_supported config.options ≠ [] then
    .error (validate_cli_supported config.options)
  else if validate_update config ≠ [] then .error (validate_update config)
  else .ok config

-- A refused command line leaves lines on the error stream.
def parse_args (args : List String) : Except (List String) CliConfig := do
  let config ← read_options (args.drop 1) {}
  if config.show_help ∨ config.show_version then return config
  check_config config

example : parse_args ["cycle-enum", "-i", "g.txt", "--policy", "omp", "--threads", "4"] =
    .ok { input_path := "g.txt", options := { execution := .OpenMP, openmp_threads := 4 } } := by
  decide +kernel

example : parse_args ["cycle-enum", "--input", "--mode"] = .error ["--input requires a value"] := by
  decide +kernel

end CycleEnum.Cli
