import CycleEnum.Cli.Settings

namespace CycleEnum.Cli

-- What the loop over the arguments can leave: numbers in the ranges of their types, and the
-- two options that no argument sets.
structure CliConfig.InRange (config : CliConfig) : Prop where
  path : is_option config.input_path = false
  threads : -2 ^ 31 ≤ config.options.openmp_threads ∧ config.options.openmp_threads < 2 ^ 31
  device : -2 ^ 31 ≤ config.options.cuda_device_id ∧ config.options.cuda_device_id < 2 ^ 31
  window : ∀ width ∈ config.options.time_window, -2 ^ 63 ≤ width ∧ width < 2 ^ 63
  length : ∀ limit ∈ config.options.max_cycle_length, limit < 2 ^ 64
  deletes : config.batch_params.num_deletions < 2 ^ 64
  inserts : config.batch_params.num_insertions < 2 ^ 64
  locality : ∀ window ∈ config.batch_params.locality_window, window < 2 ^ 64
  seed : config.batch_seed < 2 ^ 64
  plain : config.options.use_cycle_union = false ∧ config.options.validate_results = false

-- What the backends get: the input, and what the checks demand of the options.
structure CliConfig.Accepted (config : CliConfig) : Prop where
  in_range : config.InRange
  input_given : config.input_path ≠ ""
  valid : config.options.Valid
  cuda_johnson : config.options.execution = .Cuda →
    config.options.algorithm = .Johnson ∧ config.options.max_cycle_length ≠ none
  openmp_modes : config.options.execution = .OpenMP →
    config.options.algorithm ≠ .BruteForce ∧ config.options.mode ≠ .SimpleTimeWindow
  update_simple : config.task = .Update →
    config.options.mode = .Simple ∧ config.options.max_cycle_length ≠ none
  runs : config.show_help = false ∧ config.show_version = false

section Checks

variable {config : CliConfig}

theorem validate_cli_supported_eq_nil {options : CycleEnumerationOptions} :
    validate_cli_supported options = [] ↔
      (options.execution = .Cuda → options.algorithm = .Johnson ∧ options.max_cycle_length ≠ none) ∧
      (options.execution = .OpenMP → options.algorithm ≠ .BruteForce ∧
        options.mode ≠ .SimpleTimeWindow) := by
  unfold validate_cli_supported
  simp only [List.append_eq_nil_iff, ite_eq_right_iff, reduceCtorEq, imp_false, not_not, ne_eq]

theorem validate_update_eq_nil : validate_update config = [] ↔ (config.task = .Update →
    config.options.mode = .Simple ∧ config.options.max_cycle_length ≠ none) := by
  unfold validate_update
  simp only [List.append_eq_nil_iff, ite_eq_right_iff, reduceCtorEq, imp_false, not_not, ne_eq]

theorem check_config_ok_iff {checked : CliConfig} : check_config config = .ok checked ↔
    checked = config ∧ config.input_path ≠ "" ∧ config.options.Valid ∧
      (validate_cli_supported config.options = [] ∧ validate_update config = []) := by
  rw [← validate_options_eq_nil, check_config]
  by_cases hpath : config.input_path = ""
  · simp [hpath]
  by_cases hvalid : validate_options config.options = []
  · by_cases hcli : validate_cli_supported config.options = []
    · by_cases hupdate : validate_update config = []
      · simp [hpath, hvalid, hcli, hupdate, eq_comm]
      · simp [hpath, hvalid, hcli, hupdate]
    · simp [hpath, hvalid, hcli]
  · simp [hpath, hvalid]

end Checks

section InRange

variable {config next : CliConfig} {value option : String}

theorem parse_integer_ok {lowest highest parsed : Int}
    (h : parse_integer lowest highest value option = .ok parsed) :
    lowest ≤ parsed ∧ parsed ≤ highest := by
  rw [parse_integer] at h
  cases hfound : (from_chars (lowest < 0) value.toList).filter fun parsed =>
      lowest ≤ parsed && parsed ≤ highest with
  | none =>
      rw [hfound] at h
      cases h
  | some found =>
      rw [hfound] at h
      obtain rfl := Except.ok.inj h
      have hkept := (Option.filter_eq_some_iff.mp hfound).2
      simpa using hkept

theorem word_option_ok {α : Type} {names : List String} {what : String} {parse : String → Option α}
    {set : CliConfig → α → CliConfig}
    (h : (word_option names what parse set).read option value config = .ok next) :
    ∃ word, next = set config word := by
  dsimp only [word_option] at h
  cases hword : parse value with
  | none =>
      rw [hword] at h
      cases h
  | some word =>
      rw [hword] at h
      exact ⟨word, (Except.ok.inj h).symm⟩

theorem integer_option_ok {names : List String}
    {parse : (value option : String) → Except (List String) Int} {set : CliConfig → Int → CliConfig}
    (h : (integer_option names parse set).read option value config = .ok next) :
    ∃ parsed, parse value option = .ok parsed ∧ next = set config parsed := by
  change (parse value option).map (set config) = .ok next at h
  cases hparse : parse value option with
  | error lines =>
      rw [hparse] at h
      cases h
  | ok parsed =>
      rw [hparse] at h
      exact ⟨parsed, rfl, (Except.ok.inj h).symm⟩

theorem parse_size_ok {parsed : Int} (h : parse_size value option = .ok parsed) :
    parsed.toNat < 2 ^ 64 := by
  have hrange := parse_integer_ok h
  omega

-- Every option keeps the ranges.
theorem value_option_in_range (h : config.InRange) {value_option : ValueOption}
    (hmem : value_option ∈ value_options) (hvalue : is_option value = false)
    (hread : value_option.read option value config = .ok next) : next.InRange := by
  simp only [value_options, List.mem_cons, List.not_mem_nil, or_false] at hmem
  rcases hmem with rfl | rfl | rfl | rfl | rfl | rfl | rfl | rfl | rfl | rfl | rfl | rfl | rfl | rfl
  · obtain rfl := Except.ok.inj hread
    exact { h with path := hvalue }
  · obtain ⟨_, rfl⟩ := word_option_ok hread
    exact { h with }
  · obtain ⟨_, rfl⟩ := word_option_ok hread
    exact { h with }
  · obtain ⟨_, rfl⟩ := word_option_ok hread
    exact { h with }
  · obtain ⟨parsed, hparsed, rfl⟩ := integer_option_ok hread
    have hrange := parse_integer_ok hparsed
    exact { h with threads := ⟨hrange.1, by simp only [CliConfig.with_options]; omega⟩ }
  · obtain ⟨parsed, hparsed, rfl⟩ := integer_option_ok hread
    have hrange := parse_integer_ok hparsed
    exact { h with device := ⟨hrange.1, by simp only [CliConfig.with_options]; omega⟩ }
  · obtain ⟨_, rfl⟩ := word_option_ok hread
    exact { h with }
  · obtain ⟨_, rfl⟩ := word_option_ok hread
    exact { h with }
  · obtain ⟨parsed, hparsed, rfl⟩ := integer_option_ok hread
    exact { h with deletes := parse_size_ok hparsed }
  · obtain ⟨parsed, hparsed, rfl⟩ := integer_option_ok hread
    exact { h with inserts := parse_size_ok hparsed }
  · obtain ⟨parsed, hparsed, rfl⟩ := integer_option_ok hread
    exact { h with seed := parse_size_ok hparsed }
  · obtain ⟨parsed, hparsed, rfl⟩ := integer_option_ok hread
    refine { h with locality := fun window hw => ?_ }
    obtain rfl := Option.some.inj hw
    exact parse_size_ok hparsed
  · obtain ⟨parsed, hparsed, rfl⟩ := integer_option_ok hread
    have hrange := parse_integer_ok hparsed
    refine { h with window := fun width hw => ?_ }
    obtain rfl := Option.some.inj hw
    omega
  · obtain ⟨parsed, hparsed, rfl⟩ := integer_option_ok hread
    refine { h with length := fun limit hl => ?_ }
    obtain rfl := Option.some.inj hl
    exact parse_size_ok hparsed

theorem next_value_ok {following : Option String} (h : next_value option following = .ok value) :
    following = some value ∧ is_option value = false := by
  cases following with
  | none => cases h
  | some found =>
      rw [next_value] at h
      by_cases hoption : is_option found = true
      · rw [if_pos hoption] at h
        cases h
      · rw [if_neg hoption] at h
        obtain rfl := Except.ok.inj h
        exact ⟨rfl, Bool.eq_false_iff.mpr hoption⟩

theorem read_options_in_range {args : List String} (h : config.InRange)
    (hread : read_options args config = .ok next) : next.InRange := by
  induction args, config using read_options.induct with
  | case1 config => exact Except.ok.inj hread ▸ h
  | case2 option rest config hhelp =>
      rw [read_options, if_pos hhelp] at hread
      exact Except.ok.inj hread ▸ { h with }
  | case3 rest config hhelp =>
      rw [read_options, if_neg hhelp, if_pos rfl] at hread
      exact Except.ok.inj hread ▸ { h with }
  | case4 rest config hhelp hversion ih =>
      rw [read_options, if_neg hhelp, if_neg hversion, if_pos rfl] at hread
      exact ih { h with } hread
  | case5 rest config hhelp hversion hcompare ih =>
      rw [read_options, if_neg hhelp, if_neg hversion, if_neg hcompare, if_pos rfl] at hread
      exact ih { h with } hread
  | case6 option rest config hhelp hversion hcompare htiming hnone =>
      rw [read_options, if_neg hhelp, if_neg hversion, if_neg hcompare, if_neg htiming, hnone] at hread
      cases hread
  | case7 option config hhelp hversion hcompare htiming value_option hfind =>
      rw [read_options, if_neg hhelp, if_neg hversion, if_neg hcompare, if_neg htiming, hfind] at hread
      cases hread
  | case8 option config hhelp hversion hcompare htiming value_option hfind value rest ih =>
      rw [read_options, if_neg hhelp, if_neg hversion, if_neg hcompare, if_neg htiming, hfind] at hread
      obtain ⟨found, hnext, hread⟩ := bind_ok hread
      obtain ⟨hfollowing, hvalue⟩ := next_value_ok hnext
      obtain rfl := Option.some.inj hfollowing
      obtain ⟨changed, hchanged, hread⟩ := bind_ok hread
      exact ih changed (value_option_in_range h (List.mem_of_find?_eq_some hfind) hvalue hchanged) hread

theorem default_in_range : ({} : CliConfig).InRange where
  path := by decide
  threads := by decide
  device := by decide
  window := by decide
  length := by decide
  deletes := by decide
  inserts := by decide
  locality := by decide
  seed := by decide
  plain := ⟨rfl, rfl⟩

theorem parse_args_ok_cases {args : List String} (h : parse_args args = .ok config) :
    config.InRange ∧ ((config.show_help = true ∨ config.show_version = true) ∨
      check_config config = .ok config) := by
  obtain ⟨last, hread, h⟩ := bind_ok h
  have hrange := read_options_in_range default_in_range hread
  by_cases hshow : last.show_help = true ∨ last.show_version = true
  · rw [if_pos hshow] at h
    obtain rfl := Except.ok.inj h
    exact ⟨hrange, Or.inl hshow⟩
  · rw [if_neg hshow] at h
    have hcheck : check_config last = .ok config := h
    obtain rfl := (check_config_ok_iff.mp hcheck).1
    exact ⟨hrange, Or.inr hcheck⟩

end InRange

section CommandLine

-- A command line for a configuration.
def CliConfig.settings (config : CliConfig) : List Setting :=
  [.input config.input_path, .algorithm config.options.algorithm,
    .backend config.options.execution, .mode config.options.mode,
    .openmp_threads config.options.openmp_threads, .cuda_device config.options.cuda_device_id,
    .cuda_scheduler config.cuda_scheduler, .task config.task,
    .deletes config.batch_params.num_deletions, .inserts config.batch_params.num_insertions,
    .batch_seed config.batch_seed] ++
  config.batch_params.locality_window.toList.map .batch_locality ++
  config.options.time_window.toList.map .time_window ++
  config.options.max_cycle_length.toList.map .max_cycle_length ++
  (if config.compare_recompute then [.compare_recompute] else []) ++
  (if config.report_timing then [.report_timing] else [])

variable {config : CliConfig}

theorem settings_fit (h : config.InRange) : ∀ setting ∈ config.settings, setting.Fits := by
  intro setting hs
  simp only [CliConfig.settings, List.mem_append, List.mem_cons, List.not_mem_nil, or_false,
    List.mem_map, Option.mem_toList] at hs
  rcases hs with ((((hs | ⟨window, hw, rfl⟩) | ⟨width, hw, rfl⟩) | ⟨limit, hl, rfl⟩) | hs) | hs
  · rcases hs with rfl | rfl | rfl | rfl | rfl | rfl | rfl | rfl | rfl | rfl | rfl
    · exact h.path
    · trivial
    · trivial
    · trivial
    · exact h.threads
    · exact h.device
    · trivial
    · trivial
    · exact h.deletes
    · exact h.inserts
    · exact h.seed
  · exact h.locality window hw
  · exact h.window width hw
  · exact h.length limit hl
  · split_ifs at hs
    · obtain rfl := List.mem_singleton.mp hs
      trivial
    · cases hs
  · split_ifs at hs
    · obtain rfl := List.mem_singleton.mp hs
      trivial
    · cases hs

theorem settings_apply (h : config.InRange) (hruns : config.show_help = false ∧ config.show_version = false) :
    config.settings.foldl Setting.apply {} = config := by
  obtain ⟨hunion, hvalidate⟩ := h.plain
  obtain ⟨hhelp, hversion⟩ := hruns
  obtain ⟨path, options, scheduler, task, params, seed, compare, timing, help, version⟩ := config
  obtain ⟨algorithm, execution, mode, window, limit, threads, device, union, validate⟩ := options
  obtain ⟨deletes, inserts, locality⟩ := params
  dsimp only at hunion hvalidate hhelp hversion
  subst hunion hvalidate hhelp hversion
  cases window <;> cases limit <;> cases locality <;> cases compare <;> cases timing <;> rfl

-- A command line of settings is checked as what they say.
theorem parse_args_settings {settings : List Setting} (h : ∀ setting ∈ settings, setting.Fits)
    (program : String) (hruns : (settings.foldl Setting.apply {}).show_help = false ∧
      (settings.foldl Setting.apply {}).show_version = false) :
    parse_args (program :: settings.flatMap Setting.words) =
      check_config (settings.foldl Setting.apply {}) := by
  rw [parse_args, List.drop_succ_cons, List.drop_zero, ok_bind (read_options_settings h {}),
    if_neg (by simp [hruns.1, hruns.2])]

theorem parse_args_render (h : config.Accepted) (program : String) :
    parse_args (program :: config.settings.flatMap Setting.words) = .ok config := by
  have happly := settings_apply h.in_range h.runs
  rw [parse_args_settings (settings_fit h.in_range) program (by rw [happly]; exact h.runs), happly]
  exact check_config_ok_iff.mpr ⟨rfl, h.input_given, h.valid,
    validate_cli_supported_eq_nil.mpr ⟨h.cuda_johnson, h.openmp_modes⟩,
    validate_update_eq_nil.mpr h.update_simple⟩

theorem parse_args_accepts_iff (config : CliConfig) :
    (∃ args, parse_args args = .ok config ∧ config.show_help = false ∧ config.show_version = false) ↔
      config.Accepted := by
  refine ⟨fun h => ?_, fun h => ⟨_, parse_args_render h "cycle-enum", h.runs⟩⟩
  obtain ⟨args, hargs, hruns⟩ := h
  obtain ⟨hrange, hshow | hcheck⟩ := parse_args_ok_cases hargs
  · simp [hruns.1, hruns.2] at hshow
  · obtain ⟨-, hinput, hvalid, hcli, hupdate⟩ := check_config_ok_iff.mp hcheck
    obtain ⟨hcuda, hopenmp⟩ := validate_cli_supported_eq_nil.mp hcli
    exact ⟨hrange, hinput, hvalid, hcuda, hopenmp, validate_update_eq_nil.mp hupdate, hruns⟩

-- The configurations that reach the backends are those that pass the checks, and each has a
-- command line that is read as it.
theorem parse_args_accepts (config : CliConfig) :
    ((∃ args, parse_args args = .ok config ∧ config.show_help = false ∧
      config.show_version = false) ↔ config.Accepted) ∧
    (config.Accepted → ∀ program,
      parse_args (program :: config.settings.flatMap Setting.words) = .ok config) :=
  ⟨parse_args_accepts_iff config, parse_args_render⟩

theorem parse_args_accepts_sample :
    parse_args ["cycle-enum", "--input", "g.txt", "--algorithm", "johnson", "--backend", "cuda",
      "--mode", "simple", "--openmp-threads", "1", "--cuda-device", "0", "--cuda-scheduler", "naive",
      "--task", "count", "--deletes", "0", "--inserts", "0", "--batch-seed", "0",
      "--max-cycle-length", "5"] =
      .ok { input_path := "g.txt", cuda_scheduler := .Naive,
            options := { execution := .Cuda, max_cycle_length := some 5 } } :=
  (parse_args_accepts { input_path := "g.txt", cuda_scheduler := .Naive,
                        options := { execution := .Cuda, max_cycle_length := some 5 } }).2
    ⟨⟨by decide, by decide, by decide, by decide, by decide, by decide, by decide, by decide, by decide,
        by decide⟩, by decide, ⟨by decide, by decide, by decide, by decide, by decide, by decide⟩,
      by decide, by decide, by decide, by decide⟩ "cycle-enum"

end CommandLine

end CycleEnum.Cli
