import CycleEnum.Cli.Main
import CycleEnum.Sequential.Relabelling

namespace CycleEnum.Cli

open CycleEnum.Engine CycleEnum.Enumeration CycleEnum.Sequential

section Numbers

variable (rows : List RawTemporalEdge) (options : CycleEnumerationOptions)

-- What the modes count, in the rows of the file alone.
noncomputable def row_number (k : Nat) : Nat :=
  match options.mode with
  | .Simple => (cycles_of (RowArc rows) k).ncard
  | .SimpleTimeWindow => (row_windows rows (options.time_window.getD 0) k).ncard
  | .Temporal => (row_cycles rows (options.time_window.getD 0) k).ncard

variable {rows options} {view : GraphView} {k : Nat}

theorem cycle_number_rows (h : build_graph_view (graph_of_rows rows) = .ok view)
    (hids : view.vertex_count < 2 ^ 32) (hk : 2 ≤ k)
    (hcap : ∀ limit ∈ options.max_cycle_length, k ≤ limit) :
    cycle_number view options k = row_number rows options k := by
  unfold cycle_number row_number
  cases options.mode with
  | Simple => exact simple_cycles_ncard_rows h hk
  | SimpleTimeWindow => exact window_instances_ncard_rows h hids hk hcap
  | Temporal => exact temporal_cycles_ncard_rows h hk

theorem CountsUpTo.congr {cap : Option Nat} {number number' : Nat → Nat} {histogram : CycleHistogram}
    (h : CountsUpTo cap number histogram)
    (hsame : ∀ k, 2 ≤ k → (∀ limit ∈ cap, k ≤ limit) → number k = number' k) :
    CountsUpTo cap number' histogram where
  canonical := h.canonical
  count_eq k := by
    rw [h.count_eq]
    split_ifs with hk
    · rw [hsame k hk.1 hk.2]
    · rfl

theorem row_number_congr {options' : CycleEnumerationOptions} (hmode : options.mode = options'.mode)
    (hwindow : options.time_window = options'.time_window) :
    row_number rows options = row_number rows options' := by
  funext k
  unfold row_number
  rw [hmode, hwindow]

theorem row_number_relabelled {rename : Int → Int} {shift : Int} (hinj : rename.Injective)
    (hmono : options.mode = .SimpleTimeWindow → StrictMono rename) (hk : 2 ≤ k) :
    row_number (rows.map (relabelled rename shift)) options k = row_number rows options k := by
  unfold row_number
  cases hmode : options.mode with
  | Simple => exact cycles_of_relabelled hinj hk
  | SimpleTimeWindow => exact row_windows_relabelled (hmono hmode) hk
  | Temporal => exact row_cycles_relabelled hinj

end Numbers

section Count

variable {machine : Machine} {files : String → Option (List Char)} {args : List String}
  {config : CliConfig} {output : Output}

-- The numbers that a run prints are those of cycles of rows: the compact ids, the grouping of
-- the timestamps and the order of the adjacency change none of them.
theorem main_count_rows (h : CountRun machine files args config output)
    (hended : output.ending = .exited 0) : ∃ text rows histogram,
      files config.input_path = some text ∧
      Holds config.input_path (is_matrix_market (get_lines text)) (data_lines text) rows ∧
      CountsUpTo config.options.max_cycle_length (row_number rows config.options) histogram ∧
      (config.options.execution ≠ .Cuda → ∀ k, 2 ≤ k →
        (∀ limit ∈ config.options.max_cycle_length, k ≤ limit) →
          row_number rows config.options k < 2 ^ 64) ∧
      histogram.to_csv true = .ok output.out := by
  obtain ⟨text, rows, view, histogram, hfile, hrows, hbuild, hids, hreports, hcsv⟩ := h.built hended
  refine ⟨text, rows, histogram, hfile, hrows,
    hreports.counts.congr fun k hk hcap => cycle_number_rows hbuild hids hk hcap, fun hhost k hk hcap => ?_,
    hcsv⟩
  rw [← cycle_number_rows hbuild hids hk hcap]
  exact hreports.uncut hhost k hk hcap

theorem main_count_rows_sample : ∃ text rows histogram,
    sample_file "0 1 1\n1 2 2\n2 0 3\n1 0 5\n" "g.txt" = some text ∧
      Holds "g.txt" (is_matrix_market (get_lines text)) (data_lines text) rows ∧
      CountsUpTo none (row_number rows sample_config.options) histogram ∧
      (∀ k, 2 ≤ k → row_number rows sample_config.options k < 2 ^ 64) ∧
      histogram.to_csv true = .ok sample_text := by
  obtain ⟨printed, hrun⟩ := sample_run
  obtain ⟨text, rows, histogram, hfile, hrows, hcounts, huncut, hcsv⟩ := main_count_rows hrun rfl
  exact ⟨text, rows, histogram, hfile, hrows, hcounts,
    fun k hk => huncut (by decide) k hk (fun _ hlimit => by cases hlimit), hcsv⟩

-- What a run prints does not depend on the names of the vertices, the origin of the time and
-- the order of the rows. Where ties in time go by the vertices, their order must stay.
theorem main_outputs_relabelled {machine' : Machine} {files' : String → Option (List Char)}
    {args' : List String} {config' : CliConfig} {output' : Output} {rename : Int → Int} {shift : Int}
    (h : CountRun machine files args config output)
    (h' : CountRun machine' files' args' config' output')
    (hmode : config.options.mode = config'.options.mode)
    (hwindow : config.options.time_window = config'.options.time_window)
    (hcap : config.options.max_cycle_length = config'.options.max_cycle_length)
    (hinj : rename.Injective) (hmono : config.options.mode = .SimpleTimeWindow → StrictMono rename)
    (hfiles : ∀ text text' rows rows', files config.input_path = some text →
      files' config'.input_path = some text' →
      Holds config.input_path (is_matrix_market (get_lines text)) (data_lines text) rows →
      Holds config'.input_path (is_matrix_market (get_lines text')) (data_lines text') rows' →
        rows'.Perm (rows.map (relabelled rename shift)))
    (hended : output.ending = .exited 0) (hended' : output'.ending = .exited 0) :
    output.out = output'.out := by
  obtain ⟨text, rows, view, histogram, hfile, hrows, hbuild, hids, hreports, hcsv⟩ := h.built hended
  obtain ⟨text', rows', view', histogram', hfile', hrows', hbuild', hids', hreports', hcsv'⟩ :=
    h'.built hended'
  have hperm := hfiles text text' rows rows' hfile hfile' hrows hrows'
  rw [graph_of_rows_congr hperm] at hbuild'
  have hcounts' : CountsUpTo config.options.max_cycle_length (cycle_number view config.options)
      histogram' := by
    have hcounts := hreports'.counts
    rw [← hcap] at hcounts
    refine hcounts.congr fun k hk hle => ?_
    rw [cycle_number_rows hbuild' hids' hk (hcap ▸ hle), ← row_number_congr hmode hwindow,
      row_number_relabelled hinj hmono hk, cycle_number_rows hbuild hids hk hle]
  obtain rfl := hreports.counts.unique hcounts'
  exact Except.ok.inj (hcsv.symm.trans hcsv')

theorem sample_holds : Holds "g.txt" false (data_lines "0 1 1\n1 2 2\n2 0 3\n1 0 5\n".toList)
    [⟨0, 1, 1⟩, ⟨1, 2, 2⟩, ⟨2, 0, 3⟩, ⟨1, 0, 5⟩] := by decide

-- The vertices in the opposite order, and ten units later.
theorem sample_relabelled_run : ∃ printed,
    CountRun sample_host (sample_file "7 6 11\n6 5 12\n5 7 13\n6 7 15\n")
      ["cycle-enum", "--input", "g.txt"] sample_config ⟨sample_text, printed, .exited 0⟩ :=
  @sample_run_of _ (view_of [⟨7, 6, 11⟩, ⟨6, 5, 12⟩, ⟨5, 7, 13⟩, ⟨6, 7, 15⟩]) (by decide +kernel)
    (by decide) (by decide +kernel)

theorem main_outputs_relabelled_sample : ∃ output output',
    CountRun sample_host (sample_file "0 1 1\n1 2 2\n2 0 3\n1 0 5\n") ["cycle-enum", "--input", "g.txt"]
      sample_config output ∧
    CountRun sample_host (sample_file "7 6 11\n6 5 12\n5 7 13\n6 7 15\n")
      ["cycle-enum", "--input", "g.txt"] sample_config output' ∧ output.out = output'.out := by
  obtain ⟨printed, hrun⟩ := sample_run
  obtain ⟨printed', hrun'⟩ := sample_relabelled_run
  have hinj : Function.Injective fun id : Int => 7 - id := fun a b hab => by
    simp only at hab
    omega
  have hfiles : ∀ text text' rows rows',
      sample_file "0 1 1\n1 2 2\n2 0 3\n1 0 5\n" "g.txt" = some text →
      sample_file "7 6 11\n6 5 12\n5 7 13\n6 7 15\n" "g.txt" = some text' →
      Holds "g.txt" (is_matrix_market (get_lines text)) (data_lines text) rows →
      Holds "g.txt" (is_matrix_market (get_lines text')) (data_lines text') rows' →
        rows'.Perm (rows.map (relabelled (fun id => 7 - id) 10)) := by
    intro text text' rows rows' htext htext' hrows hrows'
    obtain rfl := Option.some.inj htext
    obtain rfl := Option.some.inj htext'
    have hfound' : Holds "g.txt" false (data_lines "7 6 11\n6 5 12\n5 7 13\n6 7 15\n".toList)
        ([⟨0, 1, 1⟩, ⟨1, 2, 2⟩, ⟨2, 0, 3⟩, ⟨1, 0, 5⟩].map (relabelled (fun id => 7 - id) 10)) := by
      decide
    exact (holds_perm (.refl _) hrows' hfound').trans
      ((holds_perm (.refl _) sample_holds hrows).map (relabelled (fun id => 7 - id) 10))
  exact ⟨_, _, hrun, hrun', main_outputs_relabelled hrun hrun' rfl rfl rfl hinj
    (fun hmode => by cases hmode) hfiles rfl rfl⟩

end Count

end CycleEnum.Cli
