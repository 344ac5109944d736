import CycleEnum.Cli.Arguments
import CycleEnum.Core.Decimal

namespace CycleEnum.Cli

-- What one option of a command line says.
inductive Setting where
  | input (path : String)
  | algorithm (algorithm : AlgorithmFamily)
  | backend (execution : ExecutionPolicy)
  | mode (mode : CycleMode)
  | openmp_threads (threads : Int)
  | cuda_device (device_id : Int)
  | cuda_scheduler (scheduler : CudaScheduler)
  | task (task : Task)
  | deletes (count : Nat)
  | inserts (count : Nat)
  | batch_seed (seed : Nat)
  | batch_locality (window : Nat)
  | time_window (width : Int)
  | max_cycle_length (limit : Nat)
  | compare_recompute
  | report_timing
deriving DecidableEq, Repr

def CudaScheduler.name : CudaScheduler → String
  | Naive => "naive"
  | WorkQueue => "work-queue"

def Task.name : Task → String
  | Count => "count"
  | Update => "update"

namespace Setting

-- The words of the usage text.
def words : Setting → List String
  | input path => ["--input", path]
  | algorithm family => ["--algorithm", family.to_string]
  | backend execution => ["--backend", execution.to_string]
  | mode semantics => ["--mode", semantics.to_string]
  | openmp_threads threads => ["--openmp-threads", threads.repr]
  | cuda_device device_id => ["--cuda-device", device_id.repr]
  | cuda_scheduler scheduler => ["--cuda-scheduler", scheduler.name]
  | task kind => ["--task", kind.name]
  | deletes count => ["--deletes", count.repr]
  | inserts count => ["--inserts", count.repr]
  | batch_seed seed => ["--batch-seed", seed.repr]
  | batch_locality window => ["--batch-locality", window.repr]
  | time_window width => ["--time-window", width.repr]
  | max_cycle_length limit => ["--max-cycle-length", limit.repr]
  | compare_recompute => ["--compare-recompute"]
  | report_timing => ["--report-timing"]

def apply (config : CliConfig) : Setting → CliConfig
  | input path => { config with input_path := path }
  | algorithm family => config.with_options ({ · with algorithm := family })
  | backend execution => config.with_options ({ · with execution := execution })
  | mode semantics => config.with_options ({ · with mode := semantics })
  | openmp_threads threads => config.with_options ({ · with openmp_threads := threads })
  | cuda_device device_id => config.with_options ({ · with cuda_device_id := device_id })
  | cuda_scheduler scheduler => { config with cuda_scheduler := scheduler }
  | task kind => { config with task := kind }
  | deletes count => config.with_batch_params ({ · with num_deletions := count })
  | inserts count => config.with_batch_params ({ · with num_insertions := count })
  | batch_seed seed => { config with batch_seed := seed }
  | batch_locality window => config.with_batch_params ({ · with locality_window := some window })
  | time_window width => config.with_options ({ · with time_window := some width })
  | max_cycle_length limit => config.with_options ({ · with max_cycle_length := some limit })
  | compare_recompute => { config with compare_recompute := true }
  | report_timing => { config with report_timing := true }

-- The path is not taken for an option, and the numbers fit their types.
def Fits : Setting → Prop
  | input path => is_option path = false
  | openmp_threads threads => -2 ^ 31 ≤ threads ∧ threads < 2 ^ 31
  | cuda_device device_id => -2 ^ 31 ≤ device_id ∧ device_id < 2 ^ 31
  | time_window width => -2 ^ 63 ≤ width ∧ width < 2 ^ 63
  | deletes number | inserts number | batch_seed number | batch_locality number
  | max_cycle_length number => number < 2 ^ 64
  | _ => True

end Setting

section Integers

theorem head_ne_minus {n : Nat} {c : Char} {digits : List Char} (h : n.repr.toList = c :: digits) :
    c ≠ '-' := by
  rintro rfl
  have hdigit := is_digit_of_mem_repr (n := n) (c := '-') (h ▸ List.mem_cons_self)
  cases hdigit

theorem from_chars_repr (signed : Bool) (n : Nat) : from_chars signed n.repr.toList = some (n : Int) := by
  have hnatural := natural_repr n
  cases hdigits : n.repr.toList with
  | nil => exact absurd hdigits (repr_toList_ne_nil n)
  | cons c digits =>
      rw [hdigits] at hnatural
      rw [from_chars, if_neg (head_ne_minus hdigits), hnatural]

theorem from_chars_int_repr (value : Int) : from_chars true value.repr.toList = some value := by
  rcases int_repr_cases value with ⟨n, rfl, hrepr⟩ | ⟨n, rfl, hrepr⟩
  · rw [hrepr, from_chars_repr]
  · rw [hrepr, from_chars, if_pos rfl, if_pos rfl, natural_repr]
    rfl

theorem parse_integer_eq {lowest highest parsed : Int} {value option : String}
    (h : from_chars (lowest < 0) value.toList = some parsed) (hlow : lowest ≤ parsed)
    (hhigh : parsed ≤ highest) : parse_integer lowest highest value option = .ok parsed := by
  rw [parse_integer, h, Option.filter_some_pos (by simp [hlow, hhigh])]

theorem parse_int_repr {value : Int} (h : -2 ^ 31 ≤ value ∧ value < 2 ^ 31) (option : String) :
    parse_int value.repr option = .ok value :=
  parse_integer_eq (from_chars_int_repr value) h.1 (by omega)

theorem parse_timestamp_repr {value : Int} (h : -2 ^ 63 ≤ value ∧ value < 2 ^ 63) (option : String) :
    parse_timestamp value.repr option = .ok value :=
  parse_integer_eq (from_chars_int_repr value) h.1 (by omega)

theorem parse_size_repr {n : Nat} (h : n < 2 ^ 64) (option : String) :
    parse_size n.repr option = .ok (n : Int) :=
  parse_integer_eq (from_chars_repr _ n) (by omega) (by omega)

-- No number is taken for an option.
theorem is_option_repr (n : Nat) : is_option n.repr = false := by
  cases hdigits : n.repr.toList with
  | nil => exact absurd hdigits (repr_toList_ne_nil n)
  | cons c digits =>
      have hne := head_ne_minus hdigits
      simp [is_option, hdigits, List.isPrefixOf, Ne.symm hne]

theorem is_option_int_repr (value : Int) : is_option value.repr = false := by
  rcases int_repr_cases value with ⟨n, rfl, hrepr⟩ | ⟨n, rfl, hrepr⟩
  · rw [hrepr, is_option_repr]
  · cases hdigits : n.repr.toList with
    | nil => exact absurd hdigits (repr_toList_ne_nil n)
    | cons c digits =>
        have hne := head_ne_minus hdigits
        simp [is_option, hrepr, hdigits, List.isPrefixOf, Ne.symm hne]

end Integers

section Reading

variable {rest : List String} {config : CliConfig}

-- The options without a value.
def plain_options : List String :=
  ["--help", "-h", "--version", "--compare-recompute", "--report-timing"]

-- One option with its value is read.
theorem read_options_value {option value : String} {value_option : ValueOption} {next : CliConfig}
    (hplain : option ∉ plain_options)
    (hfind : value_options.find? (fun value_option => option ∈ value_option.names) = some value_option)
    (hvalue : is_option value = false) (hread : value_option.read option value config = .ok next) :
    read_options (option :: value :: rest) config = read_options rest next := by
  simp only [plain_options, List.mem_cons, List.not_mem_nil, or_false, not_or] at hplain
  obtain ⟨hhelp, hh, hversion, hcompare, htiming⟩ := hplain
  rw [read_options, if_neg (by simp [hhelp, hh]), if_neg hversion, if_neg hcompare, if_neg htiming,
    hfind]
  have hnext : next_value option (some value) = .ok value := by
    rw [next_value, hvalue]
    rfl
  dsimp only
  rw [ok_bind hnext, ok_bind hread]

theorem integer_option_read {names : List String} {value option : String} {parsed : Int}
    {parse : (value option : String) → Except (List String) Int} {set : CliConfig → Int → CliConfig}
    (h : parse value option = .ok parsed) :
    (integer_option names parse set).read option value config = .ok (set config parsed) := by
  change (parse value option).map (set config) = _
  rw [h]
  rfl

theorem read_options_setting {setting : Setting} (h : setting.Fits) :
    read_options (setting.words ++ rest) config = read_options rest (setting.apply config) := by
  cases setting with
  | input path => exact read_options_value (by decide) rfl h rfl
  | algorithm family =>
      cases family <;> exact read_options_value (by decide) rfl (by decide) rfl
  | backend execution =>
      cases execution <;> exact read_options_value (by decide) rfl (by decide) rfl
  | mode semantics => cases semantics <;> exact read_options_value (by decide) rfl (by decide) rfl
  | openmp_threads threads =>
      exact read_options_value (by decide) rfl (is_option_int_repr threads)
        (integer_option_read (parse_int_repr h _))
  | cuda_device device_id =>
      exact read_options_value (by decide) rfl (is_option_int_repr device_id)
        (integer_option_read (parse_int_repr h _))
  | cuda_scheduler scheduler =>
      cases scheduler <;> exact read_options_value (by decide) rfl (by decide) rfl
  | task kind => cases kind <;> exact read_options_value (by decide) rfl (by decide) rfl
  | deletes count =>
      exact read_options_value (by decide) rfl (is_option_repr count)
        (integer_option_read (parse_size_repr h _))
  | inserts count =>
      exact read_options_value (by decide) rfl (is_option_repr count)
        (integer_option_read (parse_size_repr h _))
  | batch_seed seed =>
      exact read_options_value (by decide) rfl (is_option_repr seed) (integer_option_read (parse_size_repr h _))
  | batch_locality window =>
      exact read_options_value (by decide) rfl (is_option_repr window)
        (integer_option_read (parse_size_repr h _))
  | time_window width =>
      exact read_options_value (by decide) rfl (is_option_int_repr width)
        (integer_option_read (parse_timestamp_repr h _))
  | max_cycle_length limit =>
      exact read_options_value (by decide) rfl (is_option_repr limit)
        (integer_option_read (parse_size_repr h _))
  | compare_recompute =>
      change read_options ("--compare-recompute" :: rest) config = _
      rw [read_options, if_neg (by decide), if_neg (by decide), if_pos rfl]
      rfl
  | report_timing =>
      change read_options ("--report-timing" :: rest) config = _
      rw [read_options, if_neg (by decide), if_neg (by decide), if_neg (by decide), if_pos rfl]
      rfl

-- The settings of a command line take effect one after the other.
theorem read_options_settings {settings : List Setting} (h : ∀ setting ∈ settings, setting.Fits)
    (config : CliConfig) :
    read_options (settings.flatMap Setting.words) config = .ok (settings.foldl Setting.apply config) := by
  induction settings generalizing config with
  | nil => rfl
  | cons setting settings ih =>
      rw [List.flatMap_cons, read_options_setting (h setting List.mem_cons_self),
        ih fun other ho => h other (List.mem_cons_of_mem _ ho)]
      rfl

end Reading

end CycleEnum.Cli
