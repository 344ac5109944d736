import CycleEnum.Cli.Rows
import CycleEnum.Sequential.Growth

namespace CycleEnum.Cli

open CycleEnum.Engine CycleEnum.Sequential

section Numbers

variable {rows more : List RawTemporalEdge} {options options' : CycleEnumerationOptions} {k : Nat}

theorem row_number_le (hmode : options.mode = options'.mode)
    (hwindow : options.time_window.getD 0 ≤ options'.time_window.getD 0) (hk : 2 ≤ k) :
    row_number rows options k ≤ row_number (rows ++ more) options' k := by
  unfold row_number
  rw [← hmode]
  cases options.mode with
  | Simple => exact row_cycles_of_ncard_le hk
  | SimpleTimeWindow => exact row_windows_ncard_le hwindow hk
  | Temporal => exact row_cycles_ncard_le hwindow

theorem exists_more_rows {rows' : List RawTemporalEdge} (h : rows.Subperm rows') :
    ∃ more, rows'.Perm (rows ++ more) := by
  obtain ⟨found, hfound, hsublist⟩ := h
  obtain ⟨more, hmore⟩ := hsublist.exists_perm_append
  exact ⟨more, hmore.trans (hfound.append_right more)⟩

end Numbers

section Count

variable {machine machine' : Machine} {files files' : String → Option (List Char)}
  {args args' : List String} {config config' : CliConfig} {output output' : Output}

-- More rows, a wider window and a larger cap only add cycles: no number that a run prints
-- gets smaller. The second run counts on the host, where a number is not cut to a word.
theorem main_counts_grow (h : CountRun machine files args config output)
    (h' : CountRun machine' files' args' config' output')
    (hmode : config.options.mode = config'.options.mode)
    (hwindow : config.options.time_window.getD 0 ≤ config'.options.time_window.getD 0)
    (hcap : ∀ limit' ∈ config'.options.max_cycle_length,
      ∃ limit ∈ config.options.max_cycle_length, limit ≤ limit')
    (hhost : config'.options.execution ≠ .Cuda)
    (hfiles : ∀ text text' rows rows', files config.input_path = some text →
      files' config'.input_path = some text' →
      Holds config.input_path (is_matrix_market (get_lines text)) (data_lines text) rows →
      Holds config'.input_path (is_matrix_market (get_lines text')) (data_lines text') rows' →
        rows.Subperm rows')
    (hended : output.ending = .exited 0) (hended' : output'.ending = .exited 0) :
    ∃ histogram histogram' : CycleHistogram, histogram.to_csv true = .ok output.out ∧
      histogram'.to_csv true = .ok output'.out ∧ ∀ k, histogram.count k ≤ histogram'.count k := by
  obtain ⟨text, rows, view, histogram, hfile, hrows, hbuild, hids, hreports, hcsv⟩ := h.built hended
  obtain ⟨text', rows', view', histogram', hfile', hrows', hbuild', hids', hreports', hcsv'⟩ :=
    h'.built hended'
  obtain ⟨more, hperm⟩ := exists_more_rows (hfiles text text' rows rows' hfile hfile' hrows hrows')
  rw [graph_of_rows_congr hperm] at hbuild'
  refine ⟨histogram, histogram', hcsv, hcsv', fun k => ?_⟩
  rw [hreports.counts.count_eq]
  split_ifs with hk
  · obtain ⟨htwo, hle⟩ := hk
    have hle' : ∀ limit' ∈ config'.options.max_cycle_length, k ≤ limit' := by
      intro limit' hlimit'
      obtain ⟨limit, hlimit, hless⟩ := hcap limit' hlimit'
      exact (hle limit hlimit).trans hless
    rw [hreports'.counts.count_eq, if_pos ⟨htwo, hle'⟩,
      Nat.mod_eq_of_lt (hreports'.uncut hhost k htwo hle')]
    calc
      cycle_number view config.options k % 2 ^ 64 ≤ cycle_number view config.options k :=
        Nat.mod_le _ _
      _ = row_number rows config.options k := cycle_number_rows hbuild hids htwo hle
      _ ≤ row_number (rows ++ more) config'.options k := row_number_le hmode hwindow htwo
      _ = cycle_number view' config'.options k := (cycle_number_rows hbuild' hids' htwo hle').symm
  · exact Nat.zero_le _

-- One row more, which closes no cycle.
theorem sample_grown_run : ∃ printed,
    CountRun sample_host (sample_file "2 3 4\n0 1 1\n1 2 2\n2 0 3\n1 0 5\n")
      ["cycle-enum", "--input", "g.txt"] sample_config ⟨sample_text, printed, .exited 0⟩ :=
  @sample_run_of _ (view_of [⟨2, 3, 4⟩, ⟨0, 1, 1⟩, ⟨1, 2, 2⟩, ⟨2, 0, 3⟩, ⟨1, 0, 5⟩]) (by decide +kernel)
    (by decide) (by decide +kernel)

theorem main_counts_grow_sample : ∃ output output',
    CountRun sample_host (sample_file "0 1 1\n1 2 2\n2 0 3\n1 0 5\n") ["cycle-enum", "--input", "g.txt"]
      sample_config output ∧
    CountRun sample_host (sample_file "2 3 4\n0 1 1\n1 2 2\n2 0 3\n1 0 5\n")
      ["cycle-enum", "--input", "g.txt"] sample_config output' ∧
    ∃ histogram histogram' : CycleHistogram, histogram.to_csv true = .ok output.out ∧
      histogram'.to_csv true = .ok output'.out ∧ ∀ k, histogram.count k ≤ histogram'.count k := by
  obtain ⟨printed, hrun⟩ := sample_run
  obtain ⟨printed', hrun'⟩ := sample_grown_run
  have hfiles : ∀ text text' rows rows',
      sample_file "0 1 1\n1 2 2\n2 0 3\n1 0 5\n" "g.txt" = some text →
      sample_file "2 3 4\n0 1 1\n1 2 2\n2 0 3\n1 0 5\n" "g.txt" = some text' →
      Holds "g.txt" (is_matrix_market (get_lines text)) (data_lines text) rows →
      Holds "g.txt" (is_matrix_market (get_lines text')) (data_lines text') rows' →
        rows.Subperm rows' := by
    intro text text' rows rows' htext htext' hrows hrows'
    obtain rfl := Option.some.inj htext
    obtain rfl := Option.some.inj htext'
    have hfound' : Holds "g.txt" false (data_lines "2 3 4\n0 1 1\n1 2 2\n2 0 3\n1 0 5\n".toList)
        [⟨2, 3, 4⟩, ⟨0, 1, 1⟩, ⟨1, 2, 2⟩, ⟨2, 0, 3⟩, ⟨1, 0, 5⟩] := by decide
    exact ((holds_perm (.refl _) hrows sample_holds).subperm.trans
      (List.sublist_cons_self _ _).subperm).trans (holds_perm (.refl _) hfound' hrows').subperm
  exact ⟨_, _, hrun, hrun', main_counts_grow hrun hrun' rfl (Int.le_refl _)
    (fun _ hlimit => by cases hlimit) (by decide) hfiles rfl rfl⟩

end Count

end CycleEnum.Cli
