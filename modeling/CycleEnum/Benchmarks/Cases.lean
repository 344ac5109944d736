import CycleEnum.Cli.Accepted

namespace CycleEnum.Benchmarks

open CycleEnum.Cli

-- The arguments of the sweep, run_cycle_benchmarks.py, of which a list that is not given is
-- empty. Its paths are texts.
structure BenchmarkArgs where
  input : List String
  cycle_enum : String
  backend : List String
  algorithm : List String
  mode : List String
  openmp_threads : List Int
  cuda_device : List Int
  time_window : Int
  max_cycle_length : Option Int
deriving DecidableEq, Repr

structure BenchmarkCase where
  input_path : String
  runner : String
  backend : String
  algorithm : String
  mode : String
  command : List String
  threads : Option Int
  cuda_device : Option Int
deriving DecidableEq, Repr

-- `values or default`.
def or_default {α : Type} (values default : List α) : List α :=
  if values.isEmpty then default else values

namespace BenchmarkArgs

def backends (args : BenchmarkArgs) : List String := or_default args.backend ["sequential"]

def algorithms (args : BenchmarkArgs) : List String := or_default args.algorithm ["johnson"]

def modes (args : BenchmarkArgs) : List String := or_default args.mode ["simple"]

def thread_values (args : BenchmarkArgs) (backend : String) : List (Option Int) :=
  if backend = "openmp" then (or_default args.openmp_threads [1]).map some else [none]

def device_values (args : BenchmarkArgs) (backend : String) : List (Option Int) :=
  if backend = "cuda" then (or_default args.cuda_device [0]).map some else [none]

end BenchmarkArgs

-- The combinations that the sweep leaves out.
def skips (backend algorithm mode : String) : Bool :=
  backend = "openmp" && algorithm = "brute-force" ||
    backend = "openmp" && mode = "simple-time-window" ||
    backend = "cuda" && (algorithm ≠ "johnson" ||
      !(["simple", "simple-time-window", "temporal"].contains mode))

def case_command (args : BenchmarkArgs) (input_path backend algorithm mode : String)
    (threads cuda_device : Option Int) : List String :=
  [args.cycle_enum, "--input", input_path, "--backend", backend, "--algorithm", algorithm,
    "--mode", mode] ++
  (if mode ≠ "simple" then ["--time-window", args.time_window.repr] else []) ++
  args.max_cycle_length.toList.flatMap (fun limit => ["--max-cycle-length", limit.repr]) ++
  threads.toList.flatMap (fun threads => ["--openmp-threads", threads.repr]) ++
  cuda_device.toList.flatMap fun device => ["--cuda-device", device.repr]

def project_cases (args : BenchmarkArgs) : List BenchmarkCase :=
  args.input.flatMap fun input_path =>
    args.backends.flatMap fun backend =>
      args.algorithms.flatMap fun algorithm =>
        args.modes.flatMap fun mode =>
          if skips backend algorithm mode then []
          else
            (args.thread_values backend).flatMap fun threads =>
              (args.device_values backend).map fun cuda_device =>
                { input_path, runner := "cycle-enum", backend, algorithm, mode
                  command := case_command args input_path backend algorithm mode threads cuda_device
                  threads, cuda_device }

-- What `argparse` and `validate_args` have checked, with numbers that the program can read
-- and paths that it does not take for options.
structure BenchmarkArgs.Checked (args : BenchmarkArgs) : Prop where
  inputs : ∀ path ∈ args.input, path ≠ "" ∧ is_option path = false
  backends : ∀ backend ∈ args.backends, backend ∈ ["sequential", "openmp", "cuda"]
  algorithms : ∀ algorithm ∈ args.algorithms, algorithm ∈ ["johnson", "read-tarjan", "brute-force"]
  modes : ∀ mode ∈ args.modes, mode ∈ ["simple", "simple-time-window", "temporal"]
  threads : ∀ threads ∈ args.openmp_threads, 0 < threads ∧ threads < 2 ^ 31
  devices : ∀ device ∈ args.cuda_device, 0 ≤ device ∧ device < 2 ^ 31
  window : 0 < args.time_window ∧ args.time_window < 2 ^ 63
  length : ∀ limit ∈ args.max_cycle_length, 2 ≤ limit ∧ limit < 2 ^ 64
  cuda : "cuda" ∈ args.backends → args.max_cycle_length ≠ none

-- What a case asks of the program.
structure BenchmarkCase.Asks (args : BenchmarkArgs) (case : BenchmarkCase) (config : CliConfig) :
    Prop where
  input_path : config.input_path = case.input_path
  backend : config.options.execution.to_string = case.backend
  algorithm : config.options.algorithm.to_string = case.algorithm
  mode : config.options.mode.to_string = case.mode
  threads : config.options.openmp_threads = case.threads.getD 1
  device : config.options.cuda_device_id = case.cuda_device.getD 0
  window : config.options.time_window = if case.mode = "simple" then none else some args.time_window
  length : config.options.max_cycle_length = args.max_cycle_length.map Int.toNat
  counts : config.task = .Count

section Cases

variable {args : BenchmarkArgs}

theorem or_default_ne_nil {α : Type} {values default : List α} (h : default ≠ []) :
    or_default values default ≠ [] := by
  unfold or_default
  split_ifs with hempty
  · exact h
  · simpa using hempty

theorem mem_or_default {α : Type} {values default : List α} {value : α}
    (h : value ∈ or_default values default) : value ∈ values ∨ value ∈ default := by
  unfold or_default at h
  split_ifs at h
  · exact Or.inr h
  · exact Or.inl h

theorem mem_project_cases {case : BenchmarkCase} : case ∈ project_cases args ↔
    ∃ input_path ∈ args.input, ∃ backend ∈ args.backends, ∃ algorithm ∈ args.algorithms,
      ∃ mode ∈ args.modes, skips backend algorithm mode = false ∧
        ∃ threads ∈ args.thread_values backend, ∃ cuda_device ∈ args.device_values backend,
          case = ⟨input_path, "cycle-enum", backend, algorithm, mode,
            case_command args input_path backend algorithm mode threads cuda_device, threads,
            cuda_device⟩ := by
  simp only [project_cases, List.mem_flatMap]
  constructor
  · rintro ⟨input_path, hi, backend, hb, algorithm, ha, mode, hm, h⟩
    by_cases hskips : skips backend algorithm mode = true
    · rw [if_pos hskips] at h
      cases h
    · rw [if_neg hskips] at h
      obtain ⟨threads, ht, h⟩ := List.mem_flatMap.mp h
      obtain ⟨cuda_device, hd, rfl⟩ := List.mem_map.mp h
      exact ⟨input_path, hi, backend, hb, algorithm, ha, mode, hm, Bool.eq_false_iff.mpr hskips,
        threads, ht, cuda_device, hd, rfl⟩
  · rintro ⟨input_path, hi, backend, hb, algorithm, ha, mode, hm, hskips, threads, ht, cuda_device,
      hd, rfl⟩
    refine ⟨input_path, hi, backend, hb, algorithm, ha, mode, hm, ?_⟩
    rw [if_neg (Bool.eq_false_iff.mp hskips)]
    exact List.mem_flatMap.mpr ⟨threads, ht, List.mem_map.mpr ⟨cuda_device, hd, rfl⟩⟩

theorem exists_named {α : Type} (all : List α) (name : α → String) {word : String}
    (h : word ∈ all.map name) : ∃ a, name a = word := by
  obtain ⟨a, -, ha⟩ := List.mem_map.mp h
  exact ⟨a, ha⟩

-- The words are those of the program.
theorem exists_execution {word : String} (h : word ∈ ["sequential", "openmp", "cuda"]) :
    ∃ execution : ExecutionPolicy, execution.to_string = word :=
  exists_named [ExecutionPolicy.Sequential, .OpenMP, .Cuda] ExecutionPolicy.to_string h

theorem exists_algorithm {word : String} (h : word ∈ ["johnson", "read-tarjan", "brute-force"]) :
    ∃ algorithm : AlgorithmFamily, algorithm.to_string = word :=
  exists_named [AlgorithmFamily.Johnson, .ReadTarjan, .BruteForce] AlgorithmFamily.to_string h

theorem exists_mode {word : String} (h : word ∈ ["simple", "simple-time-window", "temporal"]) :
    ∃ mode : CycleMode, mode.to_string = word :=
  exists_named [CycleMode.Simple, .SimpleTimeWindow, .Temporal] CycleMode.to_string h

-- The sweep skips what the program does not support.
theorem skips_iff {options : CycleEnumerationOptions}
    (hlength : options.execution = .Cuda → options.max_cycle_length ≠ none) :
    skips options.execution.to_string options.algorithm.to_string options.mode.to_string = false ↔
      validate_cli_supported options = [] := by
  rw [validate_cli_supported_eq_nil]
  cases hexecution : options.execution <;> cases options.algorithm <;> cases options.mode <;>
    simp [hlength, hexecution, skips, ExecutionPolicy.to_string, AlgorithmFamily.to_string,
      CycleMode.to_string]

-- What a command says, setting by setting.
def case_settings (args : BenchmarkArgs) (input_path : String) (execution : ExecutionPolicy)
    (algorithm : AlgorithmFamily) (mode : CycleMode) (threads cuda_device : Option Int) :
    List Setting :=
  [.input input_path, .backend execution, .algorithm algorithm, .mode mode] ++
  (if mode ≠ .Simple then [.time_window args.time_window] else []) ++
  args.max_cycle_length.toList.map (fun limit => .max_cycle_length limit.toNat) ++
  threads.toList.map .openmp_threads ++
  cuda_device.toList.map .cuda_device

def case_options (args : BenchmarkArgs) (execution : ExecutionPolicy) (algorithm : AlgorithmFamily)
    (mode : CycleMode) (threads cuda_device : Option Int) : CycleEnumerationOptions where
  algorithm := algorithm
  execution := execution
  mode := mode
  time_window := if mode = .Simple then none else some args.time_window
  max_cycle_length := args.max_cycle_length.map Int.toNat
  openmp_threads := threads.getD 1
  cuda_device_id := cuda_device.getD 0

section Command

variable {input_path : String} {execution : ExecutionPolicy} {algorithm : AlgorithmFamily}
  {mode : CycleMode} {threads cuda_device : Option Int}

theorem case_command_eq (h : args.Checked) :
    case_command args input_path execution.to_string algorithm.to_string mode.to_string threads
      cuda_device = args.cycle_enum ::
        (case_settings args input_path execution algorithm mode threads cuda_device).flatMap
          Setting.words := by
  have hlimit : args.max_cycle_length.toList.flatMap (fun limit => ["--max-cycle-length", limit.repr]) =
      (args.max_cycle_length.toList.map fun limit => Setting.max_cycle_length limit.toNat).flatMap
        Setting.words := by
    cases hlength : args.max_cycle_length with
    | none => rfl
    | some limit =>
        have hmin := h.length limit hlength
        simp only [Option.toList_some, List.flatMap_cons, List.flatMap_nil, List.map_cons, List.map_nil,
          Setting.words, Int.repr_eq_if, if_pos (show 0 ≤ limit by omega)]
  unfold case_command case_settings
  rw [hlimit]
  cases mode <;> cases threads <;> cases cuda_device <;>
    simp [Setting.words, CycleMode.to_string, List.flatMap_append]

theorem case_settings_apply :
    (case_settings args input_path execution algorithm mode threads cuda_device).foldl Setting.apply {} =
      { input_path, options := case_options args execution algorithm mode threads cuda_device } := by
  unfold case_settings case_options
  cases args.max_cycle_length <;> cases mode <;> cases threads <;> cases cuda_device <;> rfl

theorem case_settings_fit (h : args.Checked) (hi : input_path ∈ args.input)
    (ht : ∀ value ∈ threads, 0 < value ∧ value < 2 ^ 31)
    (hd : ∀ value ∈ cuda_device, 0 ≤ value ∧ value < 2 ^ 31) :
    ∀ setting ∈ case_settings args input_path execution algorithm mode threads cuda_device,
      setting.Fits := by
  intro setting hs
  simp only [case_settings, List.mem_append, List.mem_cons, List.not_mem_nil, or_false,
    List.mem_map, Option.mem_toList] at hs
  rcases hs with (((hs | hs) | ⟨limit, hl, rfl⟩) | ⟨value, hv, rfl⟩) | ⟨value, hv, rfl⟩
  · rcases hs with rfl | rfl | rfl | rfl
    · exact (h.inputs input_path hi).2
    · trivial
    · trivial
    · trivial
  · split_ifs at hs
    · obtain rfl := List.mem_singleton.mp hs
      have := h.window
      exact ⟨by omega, by omega⟩
    · cases hs
  · have := h.length limit hl
    change limit.toNat < 2 ^ 64
    omega
  · have := ht value hv
    exact ⟨by omega, by omega⟩
  · have := hd value hv
    exact ⟨by omega, by omega⟩

theorem case_options_valid (h : args.Checked)
    (ht : ∀ value ∈ threads, 0 < value ∧ value < 2 ^ 31)
    (hd : ∀ value ∈ cuda_device, 0 ≤ value ∧ value < 2 ^ 31) :
    (case_options args execution algorithm mode threads cuda_device).Valid where
  window_given := by
    intro hmode hnone
    cases mode <;> simp [case_options, requires_time_window] at hmode hnone
  window_pos := by
    intro width hw
    have := h.window
    change width ∈ (if mode = .Simple then none else some args.time_window) at hw
    split_ifs at hw
    · cases hw
    · obtain rfl := Option.some.inj hw
      omega
  length_min := by
    intro limit hl
    obtain ⟨given, hgiven, rfl⟩ := Option.map_eq_some_iff.mp hl
    have := h.length given hgiven
    omega
  threads_pos := by
    cases threads with
    | none => exact Int.one_pos
    | some value => exact (ht value rfl).1
  device_nonneg := by
    cases cuda_device with
    | none => exact Int.le_refl 0
    | some value => exact (hd value rfl).1
  union_temporal := by
    intro hunion
    cases hunion

theorem mem_thread_values (h : args.Checked) {backend : String} (ht : threads ∈ args.thread_values backend) :
    ∀ value ∈ threads, 0 < value ∧ value < 2 ^ 31 := by
  rintro value rfl
  unfold BenchmarkArgs.thread_values at ht
  split_ifs at ht
  · obtain ⟨found, hfound, heq⟩ := List.mem_map.mp ht
    obtain rfl := Option.some.inj heq
    rcases mem_or_default hfound with hfound | hfound
    · exact h.threads found hfound
    · obtain rfl := List.mem_singleton.mp hfound
      decide
  · simp at ht

theorem mem_device_values (h : args.Checked) {backend : String}
    (hd : cuda_device ∈ args.device_values backend) :
    ∀ value ∈ cuda_device, 0 ≤ value ∧ value < 2 ^ 31 := by
  rintro value rfl
  unfold BenchmarkArgs.device_values at hd
  split_ifs at hd
  · obtain ⟨found, hfound, heq⟩ := List.mem_map.mp hd
    obtain rfl := Option.some.inj heq
    rcases mem_or_default hfound with hfound | hfound
    · exact h.devices found hfound
    · obtain rfl := List.mem_singleton.mp hfound
      decide
  · simp at hd

theorem exists_value (args : BenchmarkArgs) (backend : String) :
    (∃ threads, threads ∈ args.thread_values backend) ∧
      ∃ device, device ∈ args.device_values backend := by
  constructor
  · refine List.exists_mem_of_ne_nil _ ?_
    unfold BenchmarkArgs.thread_values
    split_ifs
    · simpa using or_default_ne_nil (List.cons_ne_nil _ _)
    · exact List.cons_ne_nil _ _
  · refine List.exists_mem_of_ne_nil _ ?_
    unfold BenchmarkArgs.device_values
    split_ifs
    · simpa using or_default_ne_nil (List.cons_ne_nil _ _)
    · exact List.cons_ne_nil _ _

end Command

theorem supported_case_options (args : BenchmarkArgs) (execution : ExecutionPolicy)
    (algorithm : AlgorithmFamily) (mode : CycleMode) (threads cuda_device : Option Int) :
    validate_cli_supported (case_options args execution algorithm mode threads cuda_device) =
      validate_cli_supported { execution := execution, algorithm := algorithm, mode := mode,
                               max_cycle_length := args.max_cycle_length.map Int.toNat } := rfl

-- The program accepts every command of the sweep and reads from it what the row of the case
-- says, and the sweep leaves out only combinations that the program would refuse.
theorem project_cases_accepted (h : args.Checked) :
    (∀ case ∈ project_cases args, ∃ config, parse_args case.command = .ok config ∧
      config.Accepted ∧ case.Asks args config) ∧
    ∀ input_path ∈ args.input, ∀ execution : ExecutionPolicy, execution.to_string ∈ args.backends →
      ∀ algorithm : AlgorithmFamily, algorithm.to_string ∈ args.algorithms →
      ∀ mode : CycleMode, mode.to_string ∈ args.modes →
        ((∃ case ∈ project_cases args, case.input_path = input_path ∧
            case.backend = execution.to_string ∧ case.algorithm = algorithm.to_string ∧
            case.mode = mode.to_string) ↔
          validate_cli_supported { execution := execution, algorithm := algorithm, mode := mode,
                                   max_cycle_length := args.max_cycle_length.map Int.toNat } = []) := by
  have hcuda : ∀ execution : ExecutionPolicy, execution.to_string ∈ args.backends →
      execution = .Cuda → args.max_cycle_length.map Int.toNat ≠ none := by
    rintro execution hb rfl
    simpa using h.cuda hb
  constructor
  · intro case hcase
    obtain ⟨input_path, hi, backend, hb, name, ha, kind, hm, hskips, threads, ht, cuda_device, hd, rfl⟩ :=
      mem_project_cases.mp hcase
    obtain ⟨execution, rfl⟩ := exists_execution (h.backends backend hb)
    obtain ⟨algorithm, rfl⟩ := exists_algorithm (h.algorithms name ha)
    obtain ⟨mode, rfl⟩ := exists_mode (h.modes kind hm)
    have hthreads := mem_thread_values h ht
    have hdevice := mem_device_values h hd
    have hsupported : validate_cli_supported
        (case_options args execution algorithm mode threads cuda_device) = [] :=
      skips_iff (hcuda execution hb) |>.mp hskips
    have happly := @case_settings_apply args input_path execution algorithm mode threads cuda_device
    have hparse : parse_args (case_command args input_path execution.to_string algorithm.to_string
        mode.to_string threads cuda_device) = .ok
          { input_path, options := case_options args execution algorithm mode threads cuda_device } := by
      rw [case_command_eq h, parse_args_settings (case_settings_fit h hi hthreads hdevice) _
        (by rw [happly]; exact ⟨rfl, rfl⟩), happly]
      exact check_config_ok_iff.mpr ⟨rfl, (h.inputs input_path hi).1,
        case_options_valid h hthreads hdevice, hsupported, rfl⟩
    refine ⟨_, hparse, (parse_args_accepts_iff _).mp ⟨_, hparse, rfl, rfl⟩,
      ⟨rfl, rfl, rfl, rfl, rfl, rfl, ?_, rfl, rfl⟩⟩
    cases mode <;> rfl
  · intro input_path hi execution hb algorithm ha mode hm
    rw [← supported_case_options args execution algorithm mode none none,
      ← skips_iff (hcuda execution hb)]
    constructor
    · rintro ⟨case, hcase, -, hbackend, halgorithm, hmode⟩
      obtain ⟨_, -, _, -, _, -, _, -, hskips, _, -, _, -, rfl⟩ := mem_project_cases.mp hcase
      dsimp only at hbackend halgorithm hmode
      rwa [hbackend, halgorithm, hmode] at hskips
    · intro hskips
      obtain ⟨⟨threads, ht⟩, cuda_device, hd⟩ := exists_value args execution.to_string
      exact ⟨_, mem_project_cases.mpr ⟨input_path, hi, _, hb, _, ha, _, hm, hskips, threads, ht,
        cuda_device, hd, rfl⟩, rfl, rfl, rfl, rfl⟩

theorem project_cases_accepted_sample :
    ∃ config, parse_args ["cycle-enum", "--input", "g.txt", "--backend", "openmp", "--algorithm",
        "read-tarjan", "--mode", "temporal", "--time-window", "3600", "--openmp-threads", "8"] =
        .ok config ∧ config.Accepted := by
  obtain ⟨config, hparse, haccepted, -⟩ := (@project_cases_accepted
    ⟨["g.txt"], "cycle-enum", ["openmp"], ["read-tarjan"], ["temporal"], [8], [], 3600, none⟩
    ⟨by decide, by decide, by decide, by decide, by decide, by decide, by decide, by decide,
      by decide⟩).1 ⟨"g.txt", "cycle-enum", "openmp", "read-tarjan", "temporal",
        ["cycle-enum", "--input", "g.txt", "--backend", "openmp", "--algorithm", "read-tarjan",
          "--mode", "temporal", "--time-window", "3600", "--openmp-threads", "8"], some 8, none⟩
      (by decide +kernel)
  exact ⟨config, hparse, haccepted⟩

end Cases

end CycleEnum.Benchmarks
