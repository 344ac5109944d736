import CycleEnum.Cli.Main
import CycleEnum.Dynamic.BatchResults
import CycleEnum.Engine.Stream

namespace CycleEnum.Cli

open CycleEnum.Cuda (INT_MAX)
open CycleEnum.Dynamic
open CycleEnum.Engine
open CycleEnum.Sequential (Parsed view_of)

-- The failure of an update: an exception, never the end of the process.
def Threw : Failure → Prop
  | .threw error => error.IsException
  | .terminated => False

-- What an update needs of the graph and of the graphs that its batch can lead to.
structure Updates (view : GraphView) (config : CliConfig) (max_length : Nat) : Prop where
  ids : view.vertex_count < 2 ^ 32
  few : max_length + 1 ≤ MAX_PLACES
  counts : CountsFit (directed_of view) max_length
  updated_counts : ∀ batch, Generated view config.batch_params batch →
    CountsFit (apply_batch (directed_of view) batch) max_length
  room : config.options.execution = .Cuda → max_length ≤ INT_MAX ∧
    config.batch_params.num_deletions * view.vertex_count < 2 ^ 45 ∧
    config.batch_params.num_insertions * view.vertex_count < 2 ^ 45

section Steps

variable {view : GraphView} {max_length : Nat} {params : BatchParams} {batch : EdgeBatch}

-- A count of the view is a count of its graph.
theorem recount_directed_of (hview : Parsed view) (hids : view.vertex_count < 2 ^ 32)
    (hmax : 2 ≤ max_length) :
    recount (directed_of view) max_length = count_histogram view (some max_length) := by
  obtain ⟨fuel, graph, hbuild, view', hview', -, -, hcount⟩ :=
    (@view_round_trips_iff view hview (some max_length) (by simpa using hmax)).mpr hids
  obtain ⟨-, rfl⟩ := (build_parsed_iff hview).mp ⟨fuel, hbuild⟩
  rw [recount, hview']
  exact hcount

theorem count_histogram_throws (hview : Parsed view) (hids : view.vertex_count < 2 ^ 32)
    (hmax : 2 ≤ max_length) :
    Throws (fun prior => recount (directed_of view) max_length = .ok prior)
      (count_histogram view (some max_length)) := by
  rw [recount_directed_of hview hids hmax, count_histogram,
    Sequential.count_simple_cycles_johnson_eq (hview.well_formed hids) (by simpa using hmax)]
  exact CycleHistogram.record_throws _

theorem build_initial_graph_ensures (hview : Parsed view) {shows : String → Prop}
    {fails : Failure → Prop} :
    (build_initial_graph view).Ensures shows (fun graph => graph = directed_of view) fails :=
  .any fun _ hbuild => ((build_parsed_iff hview).mp hbuild).2

theorem generate_update_ensures (hview : Parsed view) (hids : view.vertex_count < 2 ^ 32)
    {shows : String → Prop} :
    (generate_update view params).Ensures shows (Generated view params) Threw := by
  refine on_device_ensures fun result hresult => ?_
  obtain ⟨draws, fuel, hrun⟩ := hresult
  rcases generate_batch_cases hview hids hrun with ⟨what, rfl⟩ | ⟨batch, rfl, hbatch⟩
  · trivial
  · exact hbatch

theorem nodup_of_ascending {changes : List EdgeChange}
    (h : changes.Pairwise fun a b => EdgeChange.lt a b = true) : changes.Nodup := by
  refine h.imp fun {a b} hlt heq => ?_
  rw [heq, EdgeChange.lt_iff_rank] at hlt
  exact lt_irrefl _ hlt

theorem Updates.updatable {config : CliConfig} (h : Updates view config max_length)
    (hview : Parsed view) (hbatch : Generated view config.batch_params batch) :
    Updatable (to_update_backend config.options.execution) (directed_of view) batch max_length := by
  obtain ⟨fuel, hbuild⟩ := (build_parsed_iff hview).mpr ⟨h.ids, rfl⟩
  refine ⟨directed_of_valid hview h.ids, (hbatch.applied fuel _ hbuild).1, h.few, h.counts,
    h.updated_counts batch hbatch, fun hcuda => ?_⟩
  have hexecution : config.options.execution = .Cuda := by
    cases hexecution : config.options.execution with
    | Sequential =>
        rw [hexecution] at hcuda
        cases hcuda
    | OpenMP =>
        rw [hexecution] at hcuda
        cases hcuda
    | Cuda => rfl
  obtain ⟨hlength, hdeletions, hinsertions⟩ := h.room hexecution
  refine ⟨h.ids, hlength, ?_, ?_⟩
  · rw [Dynamic.normalize, (perm_sort_and_dedup (nodup_of_ascending hbatch.deletions_ascending)).length_eq,
      hbatch.deletion_count]
    exact hdeletions
  · rw [Dynamic.normalize, (perm_sort_and_dedup (nodup_of_ascending hbatch.insertions_ascending)).length_eq,
      hbatch.insertion_count]
    exact hinsertions

theorem refused_threw {machine : Machine} {backend : UpdateBackend} {threads device_id : Int}
    {failure : Failure} (h : Refused machine backend threads device_id failure) : Threw failure := by
  cases h with
  | thread_count => trivial
  | no_openmp => trivial
  | no_cuda => trivial
  | @device _ runtime hcuda error hdevice =>
      have hthrows := Cuda.require_device_throws runtime.toCudaRuntime device_id
      rw [hdevice] at hthrows
      exact hthrows
  | call => trivial

end Steps

section Lines

theorem append_ne {front back line : String} (h : ¬front.toList <+: line.toList) :
    front ++ back ≠ line := by
  rintro rfl
  rw [String.toList_append] at h
  exact h (List.prefix_append _ _)

variable {graph : DirectedGraph} {batch : EdgeBatch} {max_length : Nat} {updated : CycleHistogram}

-- A count of the new graph finds the histogram of a right update.
theorem compare_recompute_ensures (h : recount (apply_batch graph batch) max_length = .ok updated) :
    (compare_recompute graph batch max_length updated).Ensures (fun line => line ≠ "match=no")
      (fun _ => True) Threw ∧
    (compare_recompute graph batch max_length updated).Emits "match=yes" := by
  obtain ⟨final_view, hview, hcount⟩ := bind_ok h
  have hcount : count_histogram final_view (some max_length) = .ok updated := hcount
  have hfound : (run (to_graph_view (apply_batch graph batch))).Ensures (fun line => line ≠ "match=no")
      (· = final_view) Threw := run_ensures (by rw [hview]; rfl)
  have hrecount : (run (count_histogram final_view (some max_length))).Ensures
      (fun line => line ≠ "match=no") (· = updated) Threw := run_ensures (by rw [hcount]; rfl)
  have hseconds : (print_seconds "recompute_seconds=").Ensures (fun line => line ≠ "match=no")
      (fun _ => True) Threw := print_seconds_ensures fun _ => append_ne (by decide)
  constructor
  · refine hfound.bind fun view hv => ?_
    rw [hv]
    refine hrecount.bind fun recomputed hrecomputed => hseconds.bind fun _ _ => ?_
    rw [hrecomputed, if_pos rfl]
    exact .print (List.forall_mem_singleton.mpr (by decide)) trivial
  · refine .back hfound fun view hv => ?_
    rw [hv]
    refine .back hrecount fun recomputed hrecomputed => .back hseconds fun _ _ => ?_
    rw [hrecomputed, if_pos rfl]
    exact .print (List.mem_singleton.mpr rfl)

end Lines

section Run

variable {machine : Machine} {view : GraphView} {config : CliConfig} {max_length : Nat}

-- What an update comes to: the histogram of the graph after some batch of the generator.
def Updated (view : GraphView) (config : CliConfig) (max_length : Nat) (updated : CycleHistogram) :
    Prop :=
  ∃ batch, Generated view config.batch_params batch ∧
    recount (apply_batch (directed_of view) batch) max_length = .ok updated

theorem run_update_ensures (hview : Parsed view) (hmax : 2 ≤ max_length)
    (hlength : config.options.max_cycle_length = some max_length)
    (hu : Updates view config max_length) :
    (run_update machine view config).Ensures (fun line => line ≠ "match=no")
      (Updated view config max_length) Threw ∧
    (config.compare_recompute = true → (run_update machine view config).Emits "match=yes") := by
  have hgiven : (run (value_of config.options.max_cycle_length) : Action Nat).Ensures
      (fun line => line ≠ "match=no") (· = max_length) Threw := run_ensures (by rw [hlength]; rfl)
  have hprior : (run (count_histogram view (some max_length))).Ensures (fun line => line ≠ "match=no")
      (fun prior => recount (directed_of view) max_length = .ok prior) Threw :=
    run_ensures (count_histogram_throws hview hu.ids hmax)
  have hgraph : (build_initial_graph view).Ensures (fun line => line ≠ "match=no")
      (· = directed_of view) Threw := build_initial_graph_ensures hview
  have hbatch : (generate_update view config.batch_params).Ensures (fun line => line ≠ "match=no")
      (Generated view config.batch_params) Threw := generate_update_ensures hview hu.ids
  have hupdate : ∀ prior, recount (directed_of view) max_length = .ok prior → ∀ batch,
      Generated view config.batch_params batch →
      (update_histogram machine (to_update_backend config.options.execution) (directed_of view) prior
        batch max_length config.options.openmp_threads config.options.cuda_device_id
        fresh_buffers).Ensures (fun line => line ≠ "match=no")
        (fun last => recount (apply_batch (directed_of view) batch) max_length = .ok last.1) Threw :=
    fun prior hrecount batch hgenerated =>
      (update_histogram_ensures (directed_of_well_formed hview hu.ids) hmax hrecount
        (fun _ => rfl) (hu.updatable hview hgenerated)).weaken (fun _ => False.elim)
          (fun _ hlast => hlast.1) fun _ => refused_threw
  have hsizes : ∀ batch : EdgeBatch, (Process.print ["deletions=" ++ toString batch.deletions.length ++
      " insertions=" ++ toString batch.insertions.length] : Action Unit).Ensures
        (fun line => line ≠ "match=no") (fun _ => True) Threw := fun batch => by
    rw [String.append_assoc, String.append_assoc]
    exact .print (List.forall_mem_singleton.mpr (append_ne (by decide))) trivial
  have hseconds : (print_seconds "update_seconds=").Ensures (fun line => line ≠ "match=no")
      (fun _ => True) Threw := print_seconds_ensures fun _ => append_ne (by decide)
  constructor
  · refine hgiven.bind fun limit hlimit => ?_
    rw [hlimit]
    refine hprior.bind fun prior hrecount => hgraph.bind fun graph hg => ?_
    rw [hg]
    refine hbatch.bind fun batch hgenerated => (hupdate prior hrecount batch hgenerated).bind
      fun updated hupdated => (hsizes batch).bind fun _ _ => hseconds.bind fun _ _ => ?_
    have hreturn : (pure updated.1 : Action CycleHistogram).Ensures (fun line => line ≠ "match=no")
        (Updated view config max_length) Threw := .pure ⟨batch, hgenerated, hupdated⟩
    dsimp only
    by_cases hcompare : config.compare_recompute = true
    · rw [if_pos hcompare]
      exact (compare_recompute_ensures hupdated).1.bind fun _ _ => hreturn
    · rw [if_neg hcompare]
      exact hreturn
  · intro hcompare
    refine .back hgiven fun limit hlimit => ?_
    rw [hlimit]
    refine .back hprior fun prior hrecount => .back hgraph fun graph hg => ?_
    rw [hg]
    refine .back hbatch fun batch hgenerated => .back (hupdate prior hrecount batch hgenerated)
      fun updated hupdated => .back (hsizes batch) fun _ _ => .back hseconds fun _ _ => ?_
    dsimp only
    rw [if_pos hcompare]
    exact .front (compare_recompute_ensures hupdated).2

theorem print_seconds_yields (label : String) : (print_seconds label).Yields () := by
  have hseconds : (Process.any fun _ : String => True : Action String).Yields "0" := .any trivial
  exact hseconds.bind (.print _)

theorem compare_recompute_yields {graph : DirectedGraph} {batch : EdgeBatch} {max_length : Nat}
    {updated : CycleHistogram} (h : recount (apply_batch graph batch) max_length = .ok updated) :
    (compare_recompute graph batch max_length updated).Yields () := by
  obtain ⟨final_view, hview, hcount⟩ := bind_ok h
  exact .bind (run_yields hview) (.bind (run_yields hcount) (.bind (print_seconds_yields _) (.print _)))

-- A batch of the generator leads to a run on a machine that serves the backend.
theorem exists_run_update {view : GraphView} {max_length fuel : Nat} {draws : Draws} {batch : EdgeBatch}
    (hview : Parsed view) (hmax : 2 ≤ max_length)
    (hlength : config.options.max_cycle_length = some max_length)
    (hu : Updates view config max_length)
    (hgenerated : generate_batch draws fuel view config.batch_params = some (.ok batch))
    (hserves : machine.Serves config.options.openmp_threads config.options.cuda_device_id
      (to_update_backend config.options.execution)) :
    ∃ updated, (run_update machine view config).Yields updated ∧
      recount (apply_batch (directed_of view) batch) max_length = .ok updated := by
  have hg := directed_of_well_formed hview hu.ids
  have hbatch : Generated view config.batch_params batch := by
    rcases generate_batch_cases hview hu.ids hgenerated with ⟨what, hwhat⟩ | ⟨found, hfound, hbatch⟩
    · cases hwhat
    · exact Except.ok.inj hfound ▸ hbatch
  have hupdatable := hu.updatable hview hbatch
  have hclear : ∀ thread, (fresh_buffers thread).visited = Flags.none := fun _ => rfl
  obtain ⟨prior, hprior, -⟩ := recount_eq hg hmax hu.counts
  obtain ⟨last, hupdate⟩ := exists_update hg hmax hprior hclear hupdatable hserves
  obtain ⟨hlast, -⟩ := hupdate.value (update_histogram_ensures hg hmax hprior hclear hupdatable)
  have hcount : count_histogram view (some max_length) = .ok prior :=
    (recount_directed_of hview hu.ids hmax).symm.trans hprior
  refine ⟨last.1, ?_, hlast⟩
  refine .bind (run_yields (congrArg value_of hlength)) (.bind (run_yields hcount) (.bind
    (.any ((build_parsed_iff hview).mpr ⟨hu.ids, rfl⟩)) (.bind (on_device_yields ⟨draws, fuel, hgenerated⟩)
      (.bind hupdate (.bind (.print _) (.bind (print_seconds_yields _) ?_))))))
  dsimp only
  by_cases hcompare : config.compare_recompute = true
  · rw [if_pos hcompare]
    exact .bind (compare_recompute_yields hlast) (.pure _)
  · rw [if_neg hcompare]
    exact .pure _

end Run

section Main

variable {machine : Machine} {files : String → Option (List Char)} {args : List String}
  {config : CliConfig} {output : Output}

theorem finish_threw {printed : List String} {failure : Failure} (h : Threw failure) :
    (finish printed (.error failure)).out = [] ∧
      (finish printed (.error failure)).ending = .exited 1 ∧
      (finish printed (.error failure)).err ≠ [] := by
  cases failure with
  | terminated => cases h
  | threw error =>
      cases error with
      | unfinished => cases h
      | undefined => cases h
      | _ => exact ⟨rfl, rfl, by simp [finish]⟩

-- A run of the task.
structure UpdateRun (machine : Machine) (files : String → Option (List Char)) (args : List String)
    (config : CliConfig) (output : Output) : Prop where
  parsed : parse_args args = .ok config
  runs : config.show_help = false ∧ config.show_version = false
  task : config.task = .Update
  updates : ∀ view, load_graph files config.input_path = .ok view →
    ∀ max_length, config.options.max_cycle_length = some max_length → Updates view config max_length
  main : main machine files args output

-- What the histogram that is printed is of.
def Prints (files : String → Option (List Char)) (config : CliConfig) (printed_text : List Char) :
    Prop :=
  ∃ view max_length updated, load_graph files config.input_path = .ok view ∧
    config.options.max_cycle_length = some max_length ∧ view.vertex_count < 2 ^ 32 ∧
    Updated view config max_length updated ∧ updated.to_csv true = .ok printed_text

-- A seed for which the generator draws the last of what there is.
def last_draws : Draws where
  start last := last
  shuffle := List.reverse
  vertex _ last _ := last
  start_le := Nat.le_refl
  shuffle_perm := List.reverse_perm
  vertex_mem _ last h _ := ⟨h, Nat.le_refl last⟩

def sample_update_config : CliConfig :=
  { input_path := "g.txt", options := { max_cycle_length := some 3 }, task := .Update,
    batch_params := ⟨1, 0, none⟩, compare_recompute := true }

-- One of the four edges is deleted.
theorem sample_updates : Updates sample_view sample_update_config 3 := by
  have hview : Parsed sample_view := ⟨[⟨0, 1, 1⟩, ⟨1, 2, 2⟩, ⟨2, 0, 3⟩, ⟨1, 0, 5⟩], rfl⟩
  have hids : sample_view.vertex_count < 2 ^ 32 := by decide
  have hg := directed_of_well_formed hview hids
  obtain ⟨fuel, hbuild⟩ := (build_parsed_iff hview).mpr ⟨hids, rfl⟩
  refine ⟨hids, by decide, counts_fit_of_recount hg (by decide) (by decide +kernel),
    fun batch hbatch => ?_, fun hcuda => by cases hcuda⟩
  have hnew := apply_batch_well_formed hg (hbatch.applied fuel _ hbuild).1
  obtain ⟨deletions, insertions⟩ := batch
  obtain rfl : insertions = [] := List.eq_nil_of_length_eq_zero hbatch.insertion_count
  obtain ⟨change, rfl⟩ := List.length_eq_one_iff.mp hbatch.deletion_count
  have hedge : change ∈ edges_before (directed_of sample_view) 3 :=
    (mem_edges_before hg).mpr ((arc_directed_of _ _ _).mp (hbatch.deletions change (by simp)))
  have hedges : edges_before (directed_of sample_view) 3 = [⟨0, 1⟩, ⟨1, 0⟩, ⟨1, 2⟩, ⟨2, 0⟩] := by
    decide +kernel
  rw [hedges] at hedge
  simp only [List.mem_cons, List.not_mem_nil, or_false] at hedge
  rcases hedge with rfl | rfl | rfl | rfl
  all_goals exact counts_fit_of_recount hnew (by decide) (by decide +kernel)

def sample_update_args : List String :=
  ["cycle-enum", "--input", "g.txt", "--task", "update", "--max-length", "3", "--deletes", "1",
    "--compare-recompute"]

theorem sample_update_run : ∃ printed, UpdateRun sample_host
    (sample_file "0 1 1\n1 2 2\n2 0 3\n1 0 5\n") sample_update_args sample_update_config
      ⟨"# cycle_size, num_of_cycles\n2, 1\nTotal, 1\n".toList, printed, .exited 0⟩ := by
  have hload : load_graph (sample_file "0 1 1\n1 2 2\n2 0 3\n1 0 5\n") "g.txt" = .ok sample_view := by
    decide +kernel
  have hargs : parse_args sample_update_args = .ok sample_update_config := by decide +kernel
  have hview : Parsed sample_view := ⟨[⟨0, 1, 1⟩, ⟨1, 2, 2⟩, ⟨2, 0, 3⟩, ⟨1, 0, 5⟩], rfl⟩
  have hgenerated : generate_batch last_draws 5 sample_view ⟨1, 0, none⟩ =
      some (.ok ⟨[⟨2, 0⟩], []⟩) := by decide +kernel
  obtain ⟨updated, hrun, hupdated⟩ := @exists_run_update sample_host sample_update_config
    sample_view 3 5 last_draws _ hview (by decide) rfl sample_updates hgenerated trivial
  have hcsv : recount (apply_batch (directed_of sample_view) ⟨[⟨2, 0⟩], []⟩) 3 >>= (·.to_csv true) =
      .ok "# cycle_size, num_of_cycles\n2, 1\nTotal, 1\n".toList := by decide +kernel
  rw [hupdated] at hcsv
  have hprints : (print_histogram sample_host (sample_file "0 1 1\n1 2 2\n2 0 3\n1 0 5\n")
      sample_update_config).Yields "# cycle_size, num_of_cycles\n2, 1\nTotal, 1\n".toList :=
    .bind (run_yields hload) (.bind hrun (run_yields hcsv))
  obtain ⟨lines, hmain⟩ := main_of_yields hargs ⟨rfl, rfl⟩ hprints
  refine ⟨lines, hargs, ⟨rfl, rfl⟩, rfl, fun view hother max_length hlength => ?_, hmain⟩
  obtain rfl := Except.ok.inj (hload.symm.trans hother)
  obtain rfl := Option.some.inj hlength
  exact sample_updates

section Ends

variable (h : UpdateRun machine files args config output)

include h

theorem UpdateRun.print_histogram_ensures :
    (print_histogram machine files config).Ensures (fun line => line ≠ "match=no")
      (Prints files config) Threw ∧
    (config.compare_recompute = true → (print_histogram machine files config).Emits "match=yes") := by
  have ha := accepted_of_parsed h.parsed h.runs
  have htiming : collect_timing config = false := by simp [collect_timing, h.task]
  obtain ⟨max_length, hlength⟩ := Option.ne_none_iff_exists'.mp (ha.update_simple h.task).2
  have hload : (run (load_graph files config.input_path)).Ensures (fun line => line ≠ "match=no")
      (fun view => load_graph files config.input_path = .ok view) Threw :=
    run_ensures (load_graph_throws files config.input_path)
  have hupdate : ∀ view, load_graph files config.input_path = .ok view →
      (run_update machine view config).Ensures (fun line => line ≠ "match=no")
        (Updated view config max_length) Threw ∧
      (config.compare_recompute = true → (run_update machine view config).Emits "match=yes") := by
    intro view hview
    have hu := h.updates view hview max_length hlength
    obtain ⟨text, rows, -, -, hbuild⟩ := load_graph_rows hview hu.ids
    exact run_update_ensures (Sequential.parsed_of_rows hbuild (Nat.le_of_lt hu.ids))
      (ha.valid.length_min max_length hlength) hlength hu
  unfold print_histogram
  rw [h.task]
  dsimp only
  rw [htiming]
  constructor
  · refine hload.bind fun view hview => (hupdate view hview).1.bind fun updated hupdated => ?_
    exact run_ensures (updated.to_csv_throws.weaken (fun text htext =>
      ⟨view, max_length, updated, hview, hlength, (h.updates view hview max_length hlength).ids,
        hupdated, htext⟩) fun _ => id)
  · intro hcompare
    exact .back hload fun view hview => .front ((hupdate view hview).2 hcompare)

-- Whatever the backend, the machine, the draws of the generator and the schedules are: a run
-- that ends well has printed what a full count of the changed graph gives, and where it was
-- asked to compare the two it said so. Any other run shows that it failed and prints nothing.
theorem main_update_exact :
    (output.ending = .exited 0 ∧
      (∃ text rows max_length updated, files config.input_path = some text ∧
        Holds config.input_path (is_matrix_market (get_lines text)) (data_lines text) rows ∧
        config.options.max_cycle_length = some max_length ∧
        Updated (view_of rows) config max_length updated ∧ updated.to_csv true = .ok output.out) ∧
      "match=no" ∉ output.err ∧ (config.compare_recompute = true → "match=yes" ∈ output.err)) ∨
    output.out = [] ∧ output.ending = .exited 1 ∧ output.err ≠ [] := by
  obtain ⟨printed, result, hrun, rfl⟩ := main_runs h.parsed h.runs h.main
  obtain ⟨hensures, hemits⟩ := h.print_histogram_ensures
  obtain ⟨hlines, hsettles⟩ := hensures printed result hrun
  cases result with
  | error failure => exact Or.inr (finish_threw hsettles)
  | ok printed_text =>
      obtain ⟨view, max_length, updated, hload, hlength, hids, hupdated, hcsv⟩ := hsettles
      obtain ⟨text, rows, hfile, hrows, hbuild⟩ := load_graph_rows hload hids
      rw [← view_of_eq hbuild] at hupdated
      exact Or.inl ⟨rfl, ⟨text, rows, max_length, updated, hfile, hrows, hlength, hupdated, hcsv⟩,
        fun hline => hlines _ hline rfl, fun hcompare => hemits hcompare printed printed_text hrun⟩

end Ends

theorem main_update_exact_sample : ∃ output, UpdateRun sample_host
    (sample_file "0 1 1\n1 2 2\n2 0 3\n1 0 5\n") sample_update_args sample_update_config output ∧
      output.out = "# cycle_size, num_of_cycles\n2, 1\nTotal, 1\n".toList ∧
      "match=yes" ∈ output.err := by
  obtain ⟨printed, hrun⟩ := sample_update_run
  rcases main_update_exact hrun with ⟨-, -, -, hmatch⟩ | ⟨-, hended, -⟩
  · exact ⟨_, hrun, rfl, hmatch rfl⟩
  · cases hended

end Main

end CycleEnum.Cli
