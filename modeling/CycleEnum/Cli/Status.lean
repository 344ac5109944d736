import CycleEnum.Cli.Rows

namespace CycleEnum.Cli

open CycleEnum.Engine CycleEnum.OpenMP
open CycleEnum.Sequential (NoWindowOverflow PartialWaysFit)
open Process (Settles)

section Total

-- The numbers of all lengths together fit a word.
def TotalFits (cap : Option Nat) (number : Nat → Nat) : Prop :=
  ∀ lengths : Finset Nat, (∀ k ∈ lengths, 2 ≤ k ∧ ∀ limit ∈ cap, k ≤ limit) →
    ∑ k ∈ lengths, number k ≤ MAX_COUNT

variable {cap : Option Nat} {number number' : Nat → Nat} {histogram : CycleHistogram}
  {events : List (Nat × Nat)}

theorem TotalFits.number_le (h : TotalFits cap number) {k : Nat} (hk : 2 ≤ k)
    (hle : ∀ limit ∈ cap, k ≤ limit) : number k ≤ MAX_COUNT := by
  have hone := h {k} fun other hother => by
    rw [Finset.mem_singleton] at hother
    rw [hother]
    exact ⟨hk, hle⟩
  rwa [Finset.sum_singleton] at hone

theorem total_fits_congr (h : ∀ k, 2 ≤ k → (∀ limit ∈ cap, k ≤ limit) → number k = number' k) :
    TotalFits cap number ↔ TotalFits cap number' := by
  refine forall₂_congr fun lengths hlengths => ?_
  rw [Finset.sum_congr rfl fun k hk => h k (hlengths k hk).1 (hlengths k hk).2]

-- The lengths of a canonical histogram are among those that the cap leaves.
theorem CountsUpTo.mem_lengths (h : CountsUpTo cap number histogram) {k : Nat}
    (hk : k ∈ histogram.lengths) : 2 ≤ k ∧ ∀ limit ∈ cap, k ≤ limit := by
  obtain ⟨count, hcount⟩ := Option.ne_none_iff_exists'.mp (CycleHistogram.mem_lengths_iff.mp hk)
  have hpos : histogram.count k ≠ 0 := by
    rw [CycleHistogram.count, Std.ExtTreeMap.getD_eq_getD_getElem?, hcount, Option.getD_some]
    exact (h.canonical k count hcount).2.ne'
  by_contra hout
  exact hpos (by rw [h.count_eq, if_neg hout])

theorem CountsUpTo.total_fits_iff (h : CountsUpTo cap number histogram)
    (huncut : ∀ k, 2 ≤ k → (∀ limit ∈ cap, k ≤ limit) → number k < 2 ^ 64) :
    TotalFits cap number ↔ histogram.size ≤ MAX_COUNT := by
  have hsum : ∀ lengths : Finset Nat, (∀ k ∈ lengths, 2 ≤ k ∧ ∀ limit ∈ cap, k ≤ limit) →
      ∑ k ∈ lengths, number k = ∑ k ∈ lengths, histogram.count k := by
    intro lengths hlengths
    refine Finset.sum_congr rfl fun k hk => ?_
    obtain ⟨htwo, hle⟩ := hlengths k hk
    rw [h.count_eq, if_pos ⟨htwo, hle⟩, Nat.mod_eq_of_lt (huncut k htwo hle)]
  constructor
  · intro hfits
    rw [CycleHistogram.size_eq_sum, ← hsum _ fun k hk => h.mem_lengths hk]
    exact hfits _ fun k hk => h.mem_lengths hk
  · intro hsize lengths hlengths
    rw [hsum lengths hlengths]
    exact (CycleHistogram.sum_count_le_size lengths).trans hsize

-- A search that finds the events can be printed exactly where their numbers fit together.
theorem prints_iff (hl : ∀ event ∈ events, 2 ≤ event.1)
    (hin : ∀ k, 2 ≤ k → (∀ limit ∈ cap, k ≤ limit) → CycleHistogram.tally events k = number k)
    (hout : ∀ k, 2 ≤ k → ¬(∀ limit ∈ cap, k ≤ limit) → CycleHistogram.tally events k = 0) :
    (∃ histogram text, (∅ : CycleHistogram).record events = .ok histogram ∧
      histogram.to_csv true = .ok text) ↔ TotalFits cap number := by
  constructor
  · rintro ⟨histogram, text, hrecord, hcsv⟩
    obtain ⟨hcounts, huncut⟩ := CountsUpTo.of_record hl hin hout hrecord
    exact (hcounts.total_fits_iff huncut).mpr (CycleHistogram.to_csv_ok hcsv).1
  · intro hfits
    have htally : (∅ : CycleHistogram).Fits events := by
      intro k
      rw [CycleHistogram.count_empty, Nat.zero_add]
      by_cases hk : 2 ≤ k
      · by_cases hle : ∀ limit ∈ cap, k ≤ limit
        · rw [hin k hk hle]
          exact hfits.number_le hk hle
        · rw [hout k hk hle]
          exact Nat.zero_le _
      · rw [CycleHistogram.tally_eq_zero hl (by omega)]
        exact Nat.zero_le _
    obtain ⟨histogram, hrecord, -⟩ := CycleHistogram.record_ok ∅ events hl htally
    obtain ⟨hcounts, huncut⟩ := CountsUpTo.of_record hl hin hout hrecord
    have hcsv := histogram.to_csv_eq
    rw [if_pos ((hcounts.total_fits_iff huncut).mp hfits)] at hcsv
    exact ⟨histogram, _, hrecord, hcsv⟩

end Total

section Search

variable {machine : Machine} {graph : GraphView} {options : CycleEnumerationOptions}
  {histogram : CycleHistogram}

-- The machine has the threads that a search on the host asks for.
def Hosts (machine : Machine) (options : CycleEnumerationOptions) : Prop :=
  options.execution = .Sequential ∨ options.execution = .OpenMP ∧
    (machine.openmp_available = true ∨ options.openmp_threads = 1)

-- What the temporal searches keep in range besides the numbers of the cycles. Only Johnson's
-- counts partial paths.
def SearchFits (graph : GraphView) (options : CycleEnumerationOptions) : Prop :=
  options.mode = .Temporal → NoWindowOverflow graph (options.time_window.getD 0) ∧
    (options.algorithm = .Johnson →
      PartialWaysFit graph (options.time_window.getD 0) options.max_cycle_length)

def Found (graph : GraphView) (options : CycleEnumerationOptions) (histogram : CycleHistogram) : Prop :=
  SearchFits graph options ∧ (∅ : CycleHistogram).record (mode_events graph options) = .ok histogram

theorem found_of_plain (hmode : options.mode ≠ .Temporal) : Found graph options histogram ↔
    (∅ : CycleHistogram).record (mode_events graph options) = .ok histogram :=
  and_iff_right fun htemporal => absurd htemporal hmode

theorem found_of_temporal {width : Int} (hmode : options.mode = .Temporal)
    (hwidth : options.time_window = some width) : Found graph options histogram ↔
      (NoWindowOverflow graph width ∧ (options.algorithm = .Johnson →
        PartialWaysFit graph width options.max_cycle_length)) ∧
      (∅ : CycleHistogram).record (Sequential.temporal_events graph width options.max_cycle_length) =
        .ok histogram := by
  rw [Found, SearchFits, mode_events, hmode, hwidth]
  simp only [forall_const, Option.getD_some]

variable (h : Admissible graph options)

include h

theorem found_johnson_iff {width : Int} (hmode : options.mode = .Temporal)
    (hwidth : options.time_window = some width) (hmax : width ≤ MAX_TIMESTAMP)
    (halgorithm : options.algorithm = .Johnson) :
    Sequential.count_temporal_cycles_johnson graph width options.max_cycle_length = .ok histogram ↔
      Found graph options histogram := by
  have hnonneg := h.nonneg
  rw [hwidth, Option.getD_some] at hnonneg
  rw [found_of_temporal hmode hwidth, Sequential.count_temporal_cycles_johnson_eq_ok_iff
    h.well_formed hnonneg h.valid.length_min hmax]
  simp only [halgorithm, forall_const]

theorem found_read_tarjan_iff {width : Int} (hmode : options.mode = .Temporal)
    (hwidth : options.time_window = some width) (hmax : width ≤ MAX_TIMESTAMP)
    (halgorithm : options.algorithm ≠ .Johnson) :
    Sequential.count_temporal_cycles_read_tarjan graph width options.max_cycle_length = .ok histogram ↔
      Found graph options histogram := by
  have hnonneg := h.nonneg
  rw [hwidth, Option.getD_some] at hnonneg
  rw [found_of_temporal hmode hwidth, (Sequential.count_temporal_cycles_read_tarjan_records
    h.well_formed hnonneg h.valid.length_min hmax).eq_ok_iff]
  simp only [halgorithm, false_implies, and_true]

theorem run_sequential_eq_ok_iff (hexecution : options.execution = .Sequential) :
    run_sequential graph options = .ok histogram ↔ Found graph options histogram := by
  have hw := h.well_formed
  have hcap := h.valid.length_min
  have hnonneg := h.nonneg
  unfold run_sequential
  cases hmode : options.mode with
  | Simple =>
      rw [found_of_plain (by simp [hmode]), mode_events, hmode]
      dsimp only
      cases options.algorithm with
      | Johnson => rw [Sequential.count_simple_cycles_johnson_eq hw hcap]
      | ReadTarjan => rw [Sequential.count_simple_cycles_read_tarjan_eq hw hcap]
      | BruteForce => rw [Sequential.count_simple_cycles_bruteforce_eq hw hcap]
  | SimpleTimeWindow =>
      obtain ⟨width, hwidth, hmax⟩ := h.time_window (by rw [hmode]; rfl)
      obtain ⟨hno, hexact⟩ := h.exact hmode
      have hexact := hexact hexecution
      rw [found_of_plain (by simp [hmode]), mode_events, hmode]
      rw [hwidth] at hno hexact hnonneg ⊢
      dsimp only [Option.getD_some] at hno hexact hnonneg ⊢
      cases halgorithm : options.algorithm with
      | Johnson =>
          rw [halgorithm] at hexact
          change Sequential.count_time_window_cycles_johnson graph width _ = _ ↔ _
          rw [Sequential.count_time_window_cycles_johnson_eq hw hnonneg hno hcap hexact]
      | ReadTarjan =>
          rw [halgorithm] at hexact
          change Sequential.count_time_window_cycles_read_tarjan graph width _ = _ ↔ _
          rw [Sequential.count_time_window_cycles_read_tarjan_eq hw hnonneg hno hcap hexact]
      | BruteForce =>
          change Sequential.count_time_window_cycles_bruteforce graph width _ = _ ↔ _
          rw [Sequential.count_time_window_cycles_bruteforce_eq hw hnonneg hno hcap]
  | Temporal =>
      obtain ⟨width, hwidth, hmax⟩ := h.time_window (by rw [hmode]; rfl)
      rw [hwidth]
      cases halgorithm : options.algorithm with
      | Johnson => exact found_johnson_iff h hmode hwidth hmax halgorithm
      | ReadTarjan => exact found_read_tarjan_iff h hmode hwidth hmax (by simp [halgorithm])
      | BruteForce =>
          rw [hwidth, Option.getD_some] at hnonneg
          change Sequential.count_temporal_cycles_bruteforce graph width _ = _ ↔ _
          rw [found_of_temporal hmode hwidth,
            (Sequential.count_temporal_cycles_bruteforce_records hw hnonneg hcap).eq_ok_iff]
          simp [halgorithm]

omit h in
theorem outcome_settles {α : Type} {first : Outcome α} {kind : α → Prop}
    (hiff : ∀ value, first = .returned value ↔ kind value) :
    Settles kind (fun _ => ∀ value, ¬kind value) (outcome first) := by
  have hnone : (∀ value, first ≠ .returned value) → ∀ value, ¬kind value :=
    fun hne value hkind => hne value ((hiff value).mpr hkind)
  cases first with
  | returned value => exact (hiff value).mp rfl
  | threw error => exact hnone fun _ hreturned => by cases hreturned
  | threw_runtime_error what => exact hnone fun _ hreturned => by cases hreturned
  | terminated => exact hnone fun _ hreturned => by cases hreturned

omit h in
theorem result_settles {α : Type} {result : Except Error α} {kind : α → Prop}
    (hiff : ∀ value, result = .ok value ↔ kind value) :
    Settles kind (fun _ => ∀ value, ¬kind value) result := by
  cases result with
  | ok value => exact (hiff value).mp rfl
  | error error => exact fun value hkind => by cases (hiff value).mpr hkind

omit h in
theorem on_team_settles {count : (schedule : List (Nat × Nat)) → Outcome CycleHistogram}
    (hcount : ∀ schedule, (1 < options.openmp_threads →
        IsSchedule options.openmp_threads.toNat graph.vertex_count schedule) →
      ∀ histogram, count schedule = .returned histogram ↔ Found graph options histogram) :
    (on_team graph options count).Ensures (fun _ => False) (Found graph options)
      (fun _ => ∀ histogram, ¬Found graph options histogram) := by
  refine .picked fun found hfound => ?_
  obtain ⟨schedule, hs, rfl⟩ := hfound
  exact outcome_settles (hcount schedule hs)

-- No schedule makes a team fail where one thread would not.
theorem run_openmp_settles (havailable : machine.openmp_available = true ∨ options.openmp_threads = 1)
    (hmodes : options.algorithm ≠ .BruteForce ∧ options.mode ≠ .SimpleTimeWindow) :
    (run_openmp machine graph options).Ensures (fun _ => False) (Found graph options)
      (fun _ => ∀ histogram, ¬Found graph options histogram) := by
  have hw := h.well_formed
  have hcap := h.valid.length_min
  have hthreads : 1 ≤ options.openmp_threads := h.valid.threads_pos
  have hstatic : options.mode = .Simple → (on_team graph options (OpenMP.count_simple_cycles graph
      machine.openmp_available options.openmp_threads options.max_cycle_length)).Ensures
        (fun _ => False) (Found graph options) (fun _ => ∀ histogram, ¬Found graph options histogram) :=
    fun hmode => on_team_settles fun schedule hs histogram => by
      rw [count_simple_cycles_returned_iff hw hcap hs hthreads havailable,
        Sequential.count_simple_cycles_bruteforce_eq hw hcap, found_of_plain (by simp [hmode]),
        mode_events, hmode]
  unfold run_openmp
  cases hmode : options.mode with
  | Simple =>
      cases halgorithm : options.algorithm with
      | Johnson => exact hstatic hmode
      | ReadTarjan => exact hstatic hmode
      | BruteForce => exact absurd halgorithm hmodes.1
  | SimpleTimeWindow => exact absurd hmode hmodes.2
  | Temporal =>
      obtain ⟨width, hwidth, hmax⟩ := h.time_window (by rw [hmode]; rfl)
      have hnonneg := h.nonneg
      rw [hwidth, Option.getD_some] at hnonneg
      have htime : (run (value_of options.time_window) : Action Int).Ensures (fun _ => False)
          (· = width) (fun _ => ∀ histogram, ¬Found graph options histogram) := by
        rw [hwidth]
        exact run_ensures rfl
      cases halgorithm : options.algorithm with
      | Johnson =>
          refine htime.bind fun value hvalue => on_team_settles fun schedule hs histogram => ?_
          subst hvalue
          rw [count_temporal_cycles_johnson_returned_iff hnonneg hmax hcap hs h.ids hthreads havailable]
          exact found_johnson_iff h hmode hwidth hmax halgorithm
      | ReadTarjan =>
          refine htime.bind fun value hvalue => on_team_settles fun schedule hs histogram => ?_
          subst hvalue
          rw [count_temporal_cycles_read_tarjan_returned_iff hnonneg hmax hcap hs h.ids hthreads havailable]
          exact found_read_tarjan_iff h hmode hwidth hmax (by simp [halgorithm])
      | BruteForce => exact absurd halgorithm hmodes.1

theorem run_backend_settles (hhost : Hosts machine options) (hmodes : options.execution = .OpenMP →
      options.algorithm ≠ .BruteForce ∧ options.mode ≠ .SimpleTimeWindow)
    (scheduler : CudaScheduler) (timed : Bool) :
    (run_backend machine graph options scheduler timed).Ensures (fun _ => False)
      (Found graph options) (fun _ => ∀ histogram, ¬Found graph options histogram) := by
  unfold run_backend
  rcases hhost with hexecution | ⟨hexecution, havailable⟩
  · rw [hexecution]
    exact run_ensures (result_settles fun histogram => run_sequential_eq_ok_iff h hexecution)
  · rw [hexecution]
    exact run_openmp_settles h havailable (hmodes hexecution)

end Search

section Run

variable {machine : Machine} {files : String → Option (List Char)} {args : List String}
  {config : CliConfig} {output : Output}

-- The histogram of a search of the file can be printed.
def Answered (files : String → Option (List Char)) (config : CliConfig) : Prop :=
  ∃ view histogram text, load_graph files config.input_path = .ok view ∧
    Found view config.options histogram ∧ histogram.to_csv true = .ok text

-- The condition on the file and the options alone: a file of rows, whose ids, edges and times
-- are in range, and whose cycles a word can count.
def Answerable (files : String → Option (List Char)) (config : CliConfig) : Prop :=
  ∃ text rows view, files config.input_path = some text ∧
    Holds config.input_path (is_matrix_market (get_lines text)) (data_lines text) rows ∧
    build_graph_view (graph_of_rows rows) = .ok view ∧ view.vertex_count < 2 ^ 32 ∧
    SearchFits view config.options ∧
    TotalFits config.options.max_cycle_length (row_number rows config.options)

theorem load_graph_of_rows {path : String} {text : List Char} {rows : List RawTemporalEdge}
    {view : GraphView} (hfile : files path = some text)
    (hrows : Holds path (is_matrix_market (get_lines text)) (data_lines text) rows)
    (hbuild : build_graph_view (graph_of_rows rows) = .ok view) (hids : view.vertex_count < 2 ^ 32) :
    load_graph files path = .ok view := by
  have hvertices := (build_graph_view_ok hbuild).2.1
  rw [load_graph, hfile, read_temporal_graph_of_rows hrows (by omega)]
  exact hbuild

theorem found_prints_iff {view : GraphView} {rows : List RawTemporalEdge}
    (h : Admissible view config.options) (hbuild : build_graph_view (graph_of_rows rows) = .ok view) :
    (∃ histogram text, Found view config.options histogram ∧ histogram.to_csv true = .ok text) ↔
      SearchFits view config.options ∧
        TotalFits config.options.max_cycle_length (row_number rows config.options) := by
  have hprints := prints_iff (mode_events_two_le h.well_formed)
    (fun _ hk hle => mode_tally_eq h.well_formed h.nonneg h.valid.length_min hk hle)
    (fun _ hk hle => mode_tally_beyond h.well_formed h.nonneg h.valid.length_min hk hle)
  rw [total_fits_congr fun k hk hle => cycle_number_rows hbuild h.ids hk hle] at hprints
  rw [← hprints]
  simp only [Found, and_assoc, exists_and_left]

theorem answered_iff (ha : config.Accepted) (hsuits : Suits files config) :
    Answered files config ↔ Answerable files config := by
  constructor
  · rintro ⟨view, histogram, text, hload, hfound, hcsv⟩
    have hids := (hsuits view hload).1
    obtain ⟨input, rows, hfile, hrows, hbuild⟩ := load_graph_rows hload hids
    exact ⟨input, rows, view, hfile, hrows, hbuild, hids,
      (found_prints_iff (hsuits.admissible ha hload) hbuild).mp ⟨histogram, text, hfound, hcsv⟩⟩
  · rintro ⟨input, rows, view, hfile, hrows, hbuild, hids, hfits⟩
    have hload := load_graph_of_rows hfile hrows hbuild hids
    obtain ⟨histogram, text, hfound, hcsv⟩ :=
      (found_prints_iff (hsuits.admissible ha hload) hbuild).mpr hfits
    exact ⟨view, histogram, text, hload, hfound, hcsv⟩

theorem print_histogram_settles (ha : config.Accepted) (htask : config.task = .Count)
    (hsuits : Suits files config) (hhost : Hosts machine config.options) :
    (print_histogram machine files config).Ensures (fun _ => True) (fun _ => Answered files config)
      (fun _ => ¬Answered files config) := by
  unfold print_histogram
  rw [htask]
  have hload : (run (load_graph files config.input_path)).Ensures (fun _ => True)
      (fun view => load_graph files config.input_path = .ok view) (fun _ => ¬Answered files config) := by
    refine run_ensures ?_
    cases hfound : load_graph files config.input_path with
    | ok view => exact rfl
    | error error =>
        rintro ⟨view, histogram, text, hload, -⟩
        cases hfound.symm.trans hload
  refine hload.bind fun view hload => ?_
  have hbackend := run_backend_settles (hsuits.admissible ha hload) hhost ha.openmp_modes
    config.cuda_scheduler (collect_timing config)
  refine (hbackend.weaken (fun _ => False.elim) (fun _ => id) fun _ hnone => ?_).bind
    fun histogram hfound => ?_
  · rintro ⟨other, histogram, text, hother, hfound, -⟩
    obtain rfl := Except.ok.inj (hload.symm.trans hother)
    exact hnone histogram hfound
  have hcsv : (run (histogram.to_csv true)).Ensures (fun _ => True) (fun _ => Answered files config)
      (fun _ => ¬Answered files config) := by
    refine run_ensures ?_
    cases hprinted : histogram.to_csv true with
    | ok text => exact ⟨view, histogram, text, hload, hfound, hprinted⟩
    | error error =>
        rintro ⟨other, found, text, hother, hrecord, hcsv⟩
        obtain rfl := Except.ok.inj (hload.symm.trans hother)
        obtain rfl := Except.ok.inj (hrecord.2.symm.trans hfound.2)
        cases hprinted.symm.trans hcsv
  dsimp only
  by_cases htiming : collect_timing config = true
  · rw [if_pos htiming]
    exact (print_timings_ensures view).bind fun _ _ => hcsv
  · rw [if_neg htiming]
    exact hcsv

-- The exit status says exactly whether the file can be answered: on the host no backend, no
-- number of threads and no schedule fails where another one ends well.
theorem main_count_status (h : CountRun machine files args config output)
    (hhost : Hosts machine config.options) :
    output.ending = .exited 0 ↔ Answerable files config := by
  have ha := accepted_of_parsed h.parsed h.runs
  obtain ⟨printed, result, hrun, rfl⟩ := main_runs h.parsed h.runs h.main
  have hsettles := (print_histogram_settles ha h.task h.suits hhost printed result hrun).2
  rw [← answered_iff ha h.suits]
  cases result with
  | ok text => exact iff_of_true rfl hsettles
  | error failure =>
      refine iff_of_false (fun hended => ?_) hsettles
      cases failure with
      | terminated => cases hended
      | threw error => cases error <;> cases hended

theorem main_count_status_sample :
    Answerable (sample_file "0 1 1\n1 2 2\n2 0 3\n1 0 5\n") sample_config := by
  obtain ⟨printed, hrun⟩ := sample_run
  exact (main_count_status hrun (Or.inl rfl)).mp rfl

end Run

end CycleEnum.Cli
