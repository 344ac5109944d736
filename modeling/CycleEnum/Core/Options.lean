import CycleEnum.Core.Types

namespace CycleEnum

inductive CycleMode where
  | Simple
  | SimpleTimeWindow
  | Temporal
deriving DecidableEq, Repr

inductive AlgorithmFamily where
  | Johnson
  | ReadTarjan
  | BruteForce
deriving DecidableEq, Repr

inductive ExecutionPolicy where
  | Sequential
  | OpenMP
  | Cuda
deriving DecidableEq, Repr

structure CycleEnumerationOptions where
  algorithm : AlgorithmFamily := .Johnson
  execution : ExecutionPolicy := .Sequential
  mode : CycleMode := .Simple
  time_window : Option Int := none
  max_cycle_length : Option Nat := none
  openmp_threads : Int := 1
  cuda_device_id : Int := 0
  use_cycle_union : Bool := false
  validate_results : Bool := false
deriving DecidableEq, Repr

def default_options : CycleEnumerationOptions := {}

def requires_time_window (mode : CycleMode) : Bool := mode = .SimpleTimeWindow || mode = .Temporal

def CycleMode.to_string : CycleMode → String
  | Simple => "simple"
  | SimpleTimeWindow => "simple-time-window"
  | Temporal => "temporal"

def AlgorithmFamily.to_string : AlgorithmFamily → String
  | Johnson => "johnson"
  | ReadTarjan => "read-tarjan"
  | BruteForce => "brute-force"

def ExecutionPolicy.to_string : ExecutionPolicy → String
  | Sequential => "sequential"
  | OpenMP => "openmp"
  | Cuda => "cuda"

def validate_options (options : CycleEnumerationOptions) : List String :=
  (if requires_time_window options.mode then
    match options.time_window with
    | none => ["time_window is required for the selected cycle mode"]
    | some width => if width ≤ 0 then ["time_window must be positive"] else []
  else []) ++
  (if options.time_window.any (· ≤ 0) then ["time_window must be positive when provided"] else []) ++
  (if options.max_cycle_length.any (· < 2) then ["max_cycle_length must be at least 2 when provided"]
    else []) ++
  (if options.openmp_threads ≤ 0 then ["openmp_threads must be positive"] else []) ++
  (if options.cuda_device_id < 0 then ["cuda_device_id must be non-negative"] else []) ++
  (if options.use_cycle_union ∧ options.mode ≠ .Temporal then
    ["cycle-union pruning is only valid for temporal mode"] else [])

-- What the checks demand.
structure CycleEnumerationOptions.Valid (options : CycleEnumerationOptions) : Prop where
  window_given : requires_time_window options.mode = true → options.time_window ≠ none
  window_pos : ∀ width ∈ options.time_window, 0 < width
  length_min : ∀ limit ∈ options.max_cycle_length, 2 ≤ limit
  threads_pos : 0 < options.openmp_threads
  device_nonneg : 0 ≤ options.cuda_device_id
  union_temporal : options.use_cycle_union = true → options.mode = .Temporal

theorem validate_options_eq_nil {options : CycleEnumerationOptions} :
    validate_options options = [] ↔ options.Valid := by
  unfold validate_options
  simp only [List.append_eq_nil_iff, ite_eq_right_iff, reduceCtorEq, imp_false]
  constructor
  · intro h
    obtain ⟨⟨⟨⟨⟨hgiven, hpos⟩, hmin⟩, hthreads⟩, hdevice⟩, hunion⟩ := h
    refine ⟨fun hmode hnone => ?_, fun width hw => ?_, fun limit hl => ?_, by omega, by omega,
      fun huse => ?_⟩
    · have := hgiven hmode
      rw [hnone] at this
      cases this
    · rw [Option.mem_def.mp hw] at hpos
      simpa using hpos
    · rw [Option.mem_def.mp hl, Option.any_some, decide_eq_true_eq] at hmin
      omega
    · by_contra hmode
      exact hunion ⟨huse, hmode⟩
  · intro h
    refine ⟨⟨⟨⟨⟨fun hmode => ?_, ?_⟩, ?_⟩, ?_⟩, ?_⟩, ?_⟩
    · cases hwidth : options.time_window with
      | none => exact absurd hwidth (h.window_given hmode)
      | some width =>
          have := h.window_pos width (Option.mem_def.mpr hwidth)
          exact if_neg (by omega)
    · rw [Option.any_eq_true]
      rintro ⟨width, hw, hle⟩
      have := h.window_pos width (Option.mem_def.mpr hw)
      simp at hle
      omega
    · rw [Option.any_eq_true]
      rintro ⟨limit, hl, hlt⟩
      have := h.length_min limit (Option.mem_def.mpr hl)
      simp at hlt
      omega
    · have := h.threads_pos
      omega
    · have := h.device_nonneg
      omega
    · rintro ⟨huse, hmode⟩
      exact hmode (h.union_temporal huse)

end CycleEnum
