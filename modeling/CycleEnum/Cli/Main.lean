import CycleEnum.Cli.Counts
import CycleEnum.Core.Lossless

namespace CycleEnum.Cli

open CycleEnum.Engine
open CycleEnum.Sequential (Parsed view_of)

section Main

def version_string : String := "0.1.0"

def usage : List String :=
  ["Usage: cycle-enum --input <path> [options]",
    "",
    "Options:",
    "  --algorithm <johnson|read-tarjan|brute-force>",
    "  --backend <sequential|openmp|cuda>",
    "  --mode <simple|simple-time-window|temporal>",
    "  --time-window <positive integer>",
    "  --max-cycle-length <integer >= 2>",
    "  --openmp-threads <positive integer>",
    "  --cuda-device <non-negative integer>",
    "  --cuda-scheduler <naive|work-queue>",
    "  --task <count|update>",
    "  --deletes <count>  --inserts <count>  (update task)",
    "  --batch-seed <integer>  --batch-locality <window>  (update task)",
    "  --compare-recompute  (update task: verify against full recompute)",
    "  --report-timing  (cuda count: print kernel/memcpy/total ms to stderr)",
    "  --help",
    "  --version"]

def text_of (lines : List String) : List Char := lines.flatMap fun line => line.toList ++ ['\n']

-- How the process ends. Of `undefined` the language says nothing.
inductive Ending where
  | exited (status : Nat)
  | aborted
  | undefined
deriving DecidableEq, Repr

structure Output where
  out : List Char
  err : List String
  ending : Ending
deriving DecidableEq, Repr

-- Both exceptions of the reader are standard exceptions.
def exception : ReadError → Error
  | .graph_parse_error what => .runtime_error what
  | .out_of_range what => .out_of_range what

def collect_timing (config : CliConfig) : Bool :=
  config.report_timing && config.task = .Count && config.options.execution = .Cuda

-- The files are their texts, where they can be opened.
def load_graph (files : String → Option (List Char)) (input_path : String) :
    Except Error GraphView := do
  let parsed ← (read_temporal_graph input_path (files input_path)).mapError exception
  build_graph_view parsed

def print_timings (view : GraphView) : Action Unit := do
  Process.print ["vertices: " ++ toString view.vertex_count, "edges: " ++ toString view.edge_count]
  print_seconds "kernel_ms: "
  print_seconds "memcpy_ms: "
  print_seconds "total_ms: "

-- The body of the `try` block.
def print_histogram (machine : Machine) (files : String → Option (List Char)) (config : CliConfig) :
    Action (List Char) := do
  let view ← run (load_graph files config.input_path)
  let histogram ←
    match config.task with
    | .Update => run_update machine view config
    | .Count => run_backend machine view config.options config.cuda_scheduler (collect_timing config)
  if collect_timing config then print_timings view
  run (histogram.to_csv true)

-- The `catch` block.
def finish (printed : List String) : Except Failure (List Char) → Output
  | .ok text => ⟨text, printed, .exited 0⟩
  | .error .terminated => ⟨[], printed, .aborted⟩
  | .error (.threw error) =>
      match error with
      | .invalid_argument what | .overflow_error what | .out_of_range what | .logic_error what
      | .runtime_error what => ⟨[], printed ++ [what], .exited 1⟩
      | .unfinished | .undefined => ⟨[], printed, .undefined⟩

def main (machine : Machine) (files : String → Option (List Char)) (args : List String)
    (output : Output) : Prop :=
  match parse_args args with
  | .error lines => output = ⟨[], lines ++ usage, .exited 1⟩
  | .ok config =>
      if config.show_help then output = ⟨text_of usage, [], .exited 0⟩
      else if config.show_version then output = ⟨text_of [version_string], [], .exited 0⟩
      else ∃ printed result, print_histogram machine files config printed result ∧
        output = finish printed result

end Main

section Load

variable {files : String → Option (List Char)} {path : String} {view : GraphView}

theorem load_graph_throws (files : String → Option (List Char)) (path : String) :
    Throws (fun view => load_graph files path = .ok view) (load_graph files path) := by
  refine throws_self fun error herror => ?_
  unfold load_graph at herror
  cases hread : read_temporal_graph path (files path) with
  | error found =>
      rw [hread] at herror
      obtain rfl := Except.error.inj herror
      cases found with
      | graph_parse_error what => trivial
      | out_of_range what => trivial
  | ok graph =>
      rw [hread] at herror
      change build_graph_view graph = .error error at herror
      unfold build_graph_view ensure_edge_ids_fit at herror
      split_ifs at herror
      · obtain rfl := Except.error.inj herror
        trivial
      · cases herror

-- What is loaded is the view of the rows in the file.
theorem load_graph_rows (h : load_graph files path = .ok view) (hids : view.vertex_count < 2 ^ 32) :
    ∃ text rows, files path = some text ∧
      Holds path (is_matrix_market (get_lines text)) (data_lines text) rows ∧
      build_graph_view (graph_of_rows rows) = .ok view := by
  obtain ⟨graph, hread, hbuild⟩ := bind_ok h
  have hread : read_temporal_graph path (files path) = .ok graph := by
    cases hfound : read_temporal_graph path (files path) with
    | error error =>
        rw [hfound] at hread
        cases hread
    | ok found =>
        rw [hfound] at hread
        exact congrArg Except.ok (Except.ok.inj hread)
  cases hfile : files path with
  | none =>
      rw [hfile] at hread
      cases hread
  | some text =>
      rw [hfile] at hread
      have hvertices := (build_graph_view_ok hbuild).2.1
      obtain ⟨rows, hrows, rfl⟩ := read_temporal_graph_rows hread (by omega)
      exact ⟨text, rows, rfl, hrows, hbuild⟩

theorem view_of_eq {rows : List RawTemporalEdge} (h : build_graph_view (graph_of_rows rows) = .ok view) :
    view_of rows = view := by
  unfold view_of
  rw [h]

end Load

section Finish

variable {options : CycleEnumerationOptions} {printed : List String}

-- A failure shows in the exit status, and nothing is printed as a histogram.
theorem finish_error {failure : Failure} (h : Ends options failure) :
    (finish printed (.error failure)).out = [] ∧
      ((finish printed (.error failure)).ending = .exited 1 ∧
          (finish printed (.error failure)).err ≠ [] ∨
        (finish printed (.error failure)).ending = .aborted ∧ options.execution = .OpenMP ∧
          1 < options.openmp_threads) := by
  cases failure with
  | terminated => exact ⟨rfl, Or.inr ⟨rfl, h⟩⟩
  | threw error =>
      cases error with
      | unfinished => cases h
      | undefined => cases h
      | _ => exact ⟨rfl, Or.inl ⟨rfl, by simp [finish]⟩⟩

end Finish

section Count

variable {machine : Machine} {files : String → Option (List Char)} {args : List String}
  {config : CliConfig} {output : Output}

-- What the options and the input of a run must satisfy for its search to be exact.
def Suits (files : String → Option (List Char)) (config : CliConfig) : Prop :=
  ∀ view, load_graph files config.input_path = .ok view →
    view.vertex_count < 2 ^ 32 ∧ Exact view config.options

theorem accepted_of_parsed (hargs : parse_args args = .ok config)
    (hruns : config.show_help = false ∧ config.show_version = false) : config.Accepted :=
  (parse_args_accepts_iff config).mp ⟨args, hargs, hruns⟩

theorem main_runs (hargs : parse_args args = .ok config)
    (hruns : config.show_help = false ∧ config.show_version = false)
    (hmain : main machine files args output) : ∃ printed result,
      print_histogram machine files config printed result ∧ output = finish printed result := by
  unfold main at hmain
  rw [hargs] at hmain
  simpa [hruns.1, hruns.2] using hmain

theorem load_graph_ensures : (run (load_graph files config.input_path)).Ensures (fun _ => True)
    (fun view => load_graph files config.input_path = .ok view) (Ends config.options) :=
  run_ensures (load_graph_throws files config.input_path)

theorem Suits.admissible {view : GraphView} (h : Suits files config) (ha : config.Accepted)
    (hload : load_graph files config.input_path = .ok view) : Admissible view config.options := by
  obtain ⟨hids, hexact⟩ := h view hload
  obtain ⟨text, rows, hfile, hrows, hbuild⟩ := load_graph_rows hload hids
  exact ⟨Sequential.parsed_of_rows hbuild (Nat.le_of_lt hids), hids, ha.valid,
    fun width hw => (ha.in_range.window width hw).2, hexact⟩

theorem print_seconds_ensures {label : String} {shows : String → Prop} {fails : Failure → Prop}
    (hshows : ∀ seconds, shows (label ++ seconds)) :
    (print_seconds label).Ensures shows (fun _ => True) fails :=
  Process.Ensures.bind (.any fun _ _ => trivial) fun seconds _ =>
    .print (List.forall_mem_singleton.mpr (hshows seconds)) trivial

theorem print_timings_ensures (view : GraphView) {fails : Failure → Prop} :
    (print_timings view).Ensures (fun _ => True) (fun _ => True) fails := by
  have hsizes : (Process.print ["vertices: " ++ toString view.vertex_count, "edges: " ++
      toString view.edge_count] : Action Unit).Ensures (fun _ => True) (fun _ => True) fails :=
    .print (fun _ _ => trivial) trivial
  have hseconds : ∀ label, (print_seconds label).Ensures (fun _ => True) (fun _ => True) fails :=
    fun _ => print_seconds_ensures fun _ => trivial
  exact hsizes.bind fun _ _ => (hseconds _).bind fun _ _ => (hseconds _).bind fun _ _ => hseconds _

theorem print_histogram_ensures (ha : config.Accepted) (htask : config.task = .Count)
    (hsuits : Suits files config) :
    (print_histogram machine files config).Ensures (fun _ => True)
      (fun text => ∃ view histogram, load_graph files config.input_path = .ok view ∧
        Reports view config.options histogram ∧ histogram.to_csv true = .ok text)
      (Ends config.options) := by
  unfold print_histogram
  rw [htask]
  refine load_graph_ensures.bind fun view hload => ?_
  refine ((run_backend_ensures (hsuits.admissible ha hload) config.cuda_scheduler
    (collect_timing config)).weaken (fun _ => False.elim) (fun _ => id) fun _ => id).bind
      fun histogram hreports => ?_
  have hcsv : (run (histogram.to_csv true)).Ensures (fun _ => True)
      (fun text => ∃ view histogram, load_graph files config.input_path = .ok view ∧
        Reports view config.options histogram ∧ histogram.to_csv true = .ok text)
      (Ends config.options) :=
    run_ensures (histogram.to_csv_throws.weaken
      (fun text htext => ⟨view, histogram, hload, hreports, htext⟩) fun _ => id)
  dsimp only
  by_cases htiming : collect_timing config = true
  · rw [if_pos htiming]
    exact (print_timings_ensures view).bind fun _ _ => hcsv
  · rw [if_neg htiming]
    exact hcsv

-- A run of the task.
structure CountRun (machine : Machine) (files : String → Option (List Char)) (args : List String)
    (config : CliConfig) (output : Output) : Prop where
  parsed : parse_args args = .ok config
  runs : config.show_help = false ∧ config.show_version = false
  task : config.task = .Count
  suits : Suits files config
  main : main machine files args output

section Run

variable (h : CountRun machine files args config output)

include h

theorem CountRun.finished : ∃ printed result, output = finish printed result ∧
    Process.Settles (fun text => ∃ view histogram, load_graph files config.input_path = .ok view ∧
      Reports view config.options histogram ∧ histogram.to_csv true = .ok text)
      (Ends config.options) result := by
  obtain ⟨printed, result, hrun, houtput⟩ := main_runs h.parsed h.runs h.main
  exact ⟨printed, result, houtput, (print_histogram_ensures (accepted_of_parsed h.parsed h.runs) h.task
    h.suits printed result hrun).2⟩

theorem CountRun.built (hended : output.ending = .exited 0) :
    ∃ text rows view histogram, files config.input_path = some text ∧
      Holds config.input_path (is_matrix_market (get_lines text)) (data_lines text) rows ∧
      build_graph_view (graph_of_rows rows) = .ok view ∧ view.vertex_count < 2 ^ 32 ∧
      Reports view config.options histogram ∧ histogram.to_csv true = .ok output.out := by
  obtain ⟨printed, result, rfl, hsettles⟩ := h.finished
  cases result with
  | error failure =>
      rcases (finish_error hsettles).2 with ⟨hexit, -⟩ | ⟨hexit, -⟩
      · cases hexit.symm.trans hended
      · cases hexit.symm.trans hended
  | ok printed_text =>
      obtain ⟨view, histogram, hload, hreports, hcsv⟩ := hsettles
      have hids := (h.suits view hload).1
      obtain ⟨text, rows, hfile, hrows, hbuild⟩ := load_graph_rows hload hids
      exact ⟨text, rows, view, histogram, hfile, hrows, hbuild, hids, hreports, hcsv⟩

theorem CountRun.printed (hended : output.ending = .exited 0) :
    ∃ text rows histogram, files config.input_path = some text ∧
      Holds config.input_path (is_matrix_market (get_lines text)) (data_lines text) rows ∧
      Reports (view_of rows) config.options histogram ∧ histogram.to_csv true = .ok output.out := by
  obtain ⟨text, rows, view, histogram, hfile, hrows, hbuild, -, hreports, hcsv⟩ := h.built hended
  rw [← view_of_eq hbuild] at hreports
  exact ⟨text, rows, histogram, hfile, hrows, hreports, hcsv⟩

theorem CountRun.failed (hended : output.ending ≠ .exited 0) : output.out = [] ∧
    (output.ending = .exited 1 ∧ output.err ≠ [] ∨ output.ending = .aborted ∧
      config.options.execution = .OpenMP ∧ 1 < config.options.openmp_threads) := by
  obtain ⟨printed, result, rfl, hsettles⟩ := h.finished
  cases result with
  | error failure => exact finish_error hsettles
  | ok printed_text => exact absurd rfl hended

end Run

-- How a run of the task comes to print a histogram.
theorem print_histogram_yields {view : GraphView} {histogram : CycleHistogram} {text : List Char}
    (htask : config.task = .Count) (htiming : collect_timing config = false)
    (hload : load_graph files config.input_path = .ok view)
    (hcount : (run_backend machine view config.options config.cuda_scheduler false).Yields histogram)
    (hcsv : histogram.to_csv true = .ok text) :
    (print_histogram machine files config).Yields text := by
  unfold print_histogram
  rw [htask, htiming]
  exact .bind (run_yields hload) (.bind hcount (run_yields hcsv))

theorem main_of_yields {text : List Char} (hargs : parse_args args = .ok config)
    (hruns : config.show_help = false ∧ config.show_version = false)
    (h : (print_histogram machine files config).Yields text) :
    ∃ printed, main machine files args ⟨text, printed, .exited 0⟩ := by
  obtain ⟨printed, hrun⟩ := h
  refine ⟨printed, ?_⟩
  unfold main
  rw [hargs]
  simpa [hruns.1, hruns.2] using ⟨printed, _, hrun, rfl⟩

-- Two cycles through the vertices 0 and 1, with one thread and with two.
def sample_file (text path : String) : Option (List Char) :=
  if path = "g.txt" then some text.toList else none

def sample_text : List Char := "# cycle_size, num_of_cycles\n2, 1\n3, 1\nTotal, 2\n".toList

def sample_config : CliConfig := { input_path := "g.txt" }

def sample_team_config : CliConfig :=
  { input_path := "g.txt", options := { algorithm := .ReadTarjan, execution := .OpenMP, openmp_threads := 2 } }

-- A build without CUDA.
def sample_host : Machine := ⟨true, none, Cuda.small_blocks⟩

def sample_view : GraphView := view_of [⟨0, 1, 1⟩, ⟨1, 2, 2⟩, ⟨2, 0, 3⟩, ⟨1, 0, 5⟩]

theorem sample_suits {view : GraphView} {text : String} (hpath : config.input_path = "g.txt")
    (hmode : config.options.mode = .Simple) (hload : load_graph (sample_file text) "g.txt" = .ok view)
    (hids : view.vertex_count < 2 ^ 32) : Suits (sample_file text) config := by
  intro other hother
  rw [hpath] at hother
  obtain rfl := Except.ok.inj (hload.symm.trans hother)
  exact ⟨hids, fun hwindow => by cases hmode.symm.trans hwindow⟩

theorem sample_run_of {text : String} {view : GraphView}
    (hload : load_graph (sample_file text) "g.txt" = .ok view) (hids : view.vertex_count < 2 ^ 32)
    (hprints : run_sequential view sample_config.options >>= (·.to_csv true) = .ok sample_text) :
    ∃ printed, CountRun sample_host (sample_file text) ["cycle-enum", "--input", "g.txt"] sample_config
      ⟨sample_text, printed, .exited 0⟩ := by
  have hargs : parse_args ["cycle-enum", "--input", "g.txt"] = .ok sample_config := by decide +kernel
  obtain ⟨histogram, hcount, hcsv⟩ := bind_ok hprints
  obtain ⟨printed, hmain⟩ := @main_of_yields sample_host _ _ _ _ hargs ⟨rfl, rfl⟩
    (print_histogram_yields rfl rfl hload (run_yields hcount) hcsv)
  exact ⟨printed, hargs, ⟨rfl, rfl⟩, rfl, sample_suits rfl rfl hload hids, hmain⟩

theorem sample_run : ∃ printed, CountRun sample_host (sample_file "0 1 1\n1 2 2\n2 0 3\n1 0 5\n")
    ["cycle-enum", "--input", "g.txt"] sample_config ⟨sample_text, printed, .exited 0⟩ :=
  @sample_run_of _ sample_view (by decide +kernel) (by decide) (by decide +kernel)

theorem sample_team_run : ∃ printed, CountRun sample_host
    (sample_file "1 0 5\n2 0 3\n# x\n0 1 1\n1 2 2\n")
    ["cycle-enum", "-i", "g.txt", "-a", "read-tarjan", "--policy", "omp", "--threads", "2"]
    sample_team_config ⟨sample_text, printed, .exited 0⟩ := by
  have hload : load_graph (sample_file "1 0 5\n2 0 3\n# x\n0 1 1\n1 2 2\n") "g.txt" =
      .ok sample_view := by decide +kernel
  have hargs : parse_args ["cycle-enum", "-i", "g.txt", "-a", "read-tarjan", "--policy", "omp",
      "--threads", "2"] = .ok sample_team_config := by decide +kernel
  have hprints : Sequential.count_simple_cycles_bruteforce sample_view none >>= (·.to_csv true) =
      .ok sample_text := by decide +kernel
  obtain ⟨histogram, hcount, hcsv⟩ := bind_ok hprints
  have hparsed : Parsed sample_view := ⟨[⟨0, 1, 1⟩, ⟨1, 2, 2⟩, ⟨2, 0, 3⟩, ⟨1, 0, 5⟩], rfl⟩
  have hschedule : OpenMP.IsSchedule 2 sample_view.vertex_count [(0, 0), (1, 1), (0, 2)] :=
    ⟨by decide, by decide⟩
  have hteam : OpenMP.count_simple_cycles sample_view true 2 none [(0, 0), (1, 1), (0, 2)] =
      .returned histogram :=
    OpenMP.count_simple_cycles_eq (hparsed.well_formed (by decide)) (by simp) hcount (by decide)
      (Or.inl rfl) hschedule
  have hbackend : (run_backend sample_host sample_view sample_team_config.options .WorkQueue
      false).Yields histogram :=
    .picked ⟨[(0, 0), (1, 1), (0, 2)], fun _ => hschedule, (congrArg outcome hteam).symm⟩
  obtain ⟨printed, hmain⟩ := @main_of_yields sample_host _ _ _ _ hargs ⟨rfl, rfl⟩
    (print_histogram_yields rfl rfl hload hbackend hcsv)
  exact ⟨printed, hargs, ⟨rfl, rfl⟩, rfl, sample_suits rfl rfl hload (by decide), hmain⟩

-- Whatever the backend, the algorithm and the machine are: a run that ends well has printed
-- the numbers of the cycles of the rows in its file, and any other run shows that it failed
-- and prints no histogram.
theorem main_count_exact (h : CountRun machine files args config output) :
    (output.ending = .exited 0 ∧ ∃ text rows histogram, files config.input_path = some text ∧
      Holds config.input_path (is_matrix_market (get_lines text)) (data_lines text) rows ∧
      Reports (view_of rows) config.options histogram ∧ histogram.to_csv true = .ok output.out) ∨
    output.ending ≠ .exited 0 ∧ output.out = [] ∧
      (output.ending = .exited 1 ∧ output.err ≠ [] ∨ output.ending = .aborted ∧
        config.options.execution = .OpenMP ∧ 1 < config.options.openmp_threads) := by
  by_cases hended : output.ending = .exited 0
  · exact Or.inl ⟨hended, h.printed hended⟩
  · exact Or.inr ⟨hended, h.failed hended⟩

theorem main_count_exact_sample :
    (∃ text rows histogram, sample_file "0 1 1\n1 2 2\n2 0 3\n1 0 5\n" "g.txt" = some text ∧
      Holds "g.txt" (is_matrix_market (get_lines text)) (data_lines text) rows ∧
      Reports (view_of rows) sample_config.options histogram ∧ histogram.to_csv true = .ok sample_text) := by
  obtain ⟨printed, hrun⟩ := sample_run
  rcases main_count_exact hrun with ⟨-, hprinted⟩ | ⟨hended, -⟩
  · exact hprinted
  · exact absurd rfl hended

theorem cycle_number_congr {graph : GraphView} {options options' : CycleEnumerationOptions}
    (hmode : options.mode = options'.mode) (hwindow : options.time_window = options'.time_window)
    (hcap : options.max_cycle_length = options'.max_cycle_length) :
    cycle_number graph options = cycle_number graph options' := by
  funext k
  unfold cycle_number
  rw [hmode, hwindow, hcap]

theorem holds_perm {path path' : String} {matrix_market : Bool} {lines lines' : List (List Char)}
    {rows rows' : List RawTemporalEdge} (hperm : lines.Perm lines')
    (h : Holds path matrix_market lines rows) (h' : Holds path' matrix_market lines' rows') :
    rows.Perm rows' := by
  obtain ⟨found, hfound, hrows⟩ := List.perm_comp_forall₂ hperm
    (h'.imp fun line row hrow => read_row_congr hrow path 0)
  have hunique : Relator.RightUnique fun line row => read_row path matrix_market 0 line = .ok row :=
    fun line row row' hrow hrow' => Except.ok.inj (hrow.symm.trans hrow')
  exact List.right_unique_forall₂' hunique h hfound ▸ hrows

-- Two runs that look for the same cycles print the same, on whatever backend, with whatever
-- algorithm and in whatever order of the lines of the file they run.
theorem main_outputs_agree {machine' : Machine} {files' : String → Option (List Char)}
    {args' : List String} {config' : CliConfig} {output' : Output}
    (h : CountRun machine files args config output)
    (h' : CountRun machine' files' args' config' output')
    (hmode : config.options.mode = config'.options.mode)
    (hwindow : config.options.time_window = config'.options.time_window)
    (hcap : config.options.max_cycle_length = config'.options.max_cycle_length)
    (hfiles : ∀ text text', files config.input_path = some text →
      files' config'.input_path = some text' →
        is_matrix_market (get_lines text) = is_matrix_market (get_lines text') ∧
          (data_lines text).Perm (data_lines text'))
    (hended : output.ending = .exited 0) (hended' : output'.ending = .exited 0) :
    output.out = output'.out := by
  obtain ⟨text, rows, histogram, hfile, hrows, hreports, hcsv⟩ := h.printed hended
  obtain ⟨text', rows', histogram', hfile', hrows', hreports', hcsv'⟩ := h'.printed hended'
  obtain ⟨hmarket, hperm⟩ := hfiles text text' hfile hfile'
  have hsame : view_of rows = view_of rows' := by
    rw [hmarket] at hrows
    unfold view_of
    rw [graph_of_rows_congr (holds_perm hperm hrows hrows')]
  have hcounts := hreports'.counts
  rw [← hsame, ← hcap, ← cycle_number_congr hmode hwindow hcap] at hcounts
  obtain rfl := hreports.counts.unique hcounts
  exact Except.ok.inj (hcsv.symm.trans hcsv')

theorem main_outputs_agree_sample : ∃ output output',
    CountRun sample_host (sample_file "0 1 1\n1 2 2\n2 0 3\n1 0 5\n") ["cycle-enum", "--input", "g.txt"]
      sample_config output ∧
    CountRun sample_host (sample_file "1 0 5\n2 0 3\n# x\n0 1 1\n1 2 2\n")
      ["cycle-enum", "-i", "g.txt", "-a", "read-tarjan", "--policy", "omp", "--threads", "2"]
      sample_team_config output' ∧ output.out = output'.out := by
  obtain ⟨printed, hrun⟩ := sample_run
  obtain ⟨printed', hrun'⟩ := sample_team_run
  refine ⟨_, _, hrun, hrun', main_outputs_agree hrun hrun' rfl rfl rfl
    (fun text text' htext htext' => ?_) rfl rfl⟩
  obtain rfl := Option.some.inj htext
  obtain rfl := Option.some.inj htext'
  exact ⟨by decide, by decide⟩

end Count

end CycleEnum.Cli
