import CycleEnum.Cli.Accepted
import CycleEnum.Cli.Run
import CycleEnum.Cuda.HostResults
import CycleEnum.OpenMP.Returns

namespace CycleEnum.Cli

open CycleEnum.Cuda (WordCounts)
open CycleEnum.Engine CycleEnum.OpenMP
open CycleEnum.Sequential (Misses NoWindowOverflow Parsed StartUncut simple_cycles starts static_events
  static_events_two_le static_tally_beyond static_tally_eq temporal_cycles temporal_events
  temporal_events_two_le temporal_tally_beyond temporal_tally_eq window_closes window_closing_event
  window_events window_events_two_le window_instances window_instances_ncard)
open Process (Settles)

section Numbers

-- The given numbers at the lengths that a cap leaves, each cut to a word.
structure CountsUpTo (cap : Option Nat) (number : Nat → Nat) (histogram : CycleHistogram) : Prop where
  canonical : histogram.Canonical
  count_eq : ∀ k, histogram.count k =
    if 2 ≤ k ∧ ∀ limit ∈ cap, k ≤ limit then number k % 2 ^ 64 else 0

variable {cap : Option Nat} {number : Nat → Nat} {histogram : CycleHistogram}

theorem CountsUpTo.unique {other : CycleHistogram} (h : CountsUpTo cap number histogram)
    (h' : CountsUpTo cap number other) : histogram = other :=
  h.canonical.ext h'.canonical fun k => by rw [h.count_eq, h'.count_eq]

theorem CountsUpTo.of_words {limit : Nat} (h : WordCounts limit number histogram) :
    CountsUpTo (some limit) number histogram where
  canonical := h.canonical
  count_eq k := by simpa using h.count_eq k

-- A search on the host counts without cutting.
theorem CountsUpTo.of_record {events : List (Nat × Nat)} (hl : ∀ event ∈ events, 2 ≤ event.1)
    (hin : ∀ k, 2 ≤ k → (∀ limit ∈ cap, k ≤ limit) → CycleHistogram.tally events k = number k)
    (hout : ∀ k, 2 ≤ k → ¬(∀ limit ∈ cap, k ≤ limit) → CycleHistogram.tally events k = 0)
    (h : (∅ : CycleHistogram).record events = .ok histogram) : CountsUpTo cap number histogram ∧
      ∀ k, 2 ≤ k → (∀ limit ∈ cap, k ≤ limit) → number k < 2 ^ 64 := by
  obtain ⟨hcanonical, hcount⟩ := CycleHistogram.record_count hl h
  have hfits : ∀ k, 2 ≤ k → (∀ limit ∈ cap, k ≤ limit) → number k < 2 ^ 64 := by
    intro k hk hle
    have hfit := CycleHistogram.fits_of_record hl h k
    rw [CycleHistogram.count_empty, Nat.zero_add, hin k hk hle] at hfit
    unfold MAX_COUNT at hfit
    omega
  refine ⟨⟨hcanonical, fun k => ?_⟩, hfits⟩
  rw [hcount]
  by_cases hk : 2 ≤ k
  · by_cases hle : ∀ limit ∈ cap, k ≤ limit
    · rw [if_pos ⟨hk, hle⟩, hin k hk hle, Nat.mod_eq_of_lt (hfits k hk hle)]
    · rw [if_neg fun h => hle h.2, hout k hk hle]
  · rw [if_neg fun h => hk h.1, CycleHistogram.tally_eq_zero hl (by omega)]

end Numbers

section Modes

variable (graph : GraphView) (options : CycleEnumerationOptions)

-- What the modes count.
noncomputable def cycle_number (k : Nat) : Nat :=
  match options.mode with
  | .Simple => (simple_cycles graph k).ncard
  | .SimpleTimeWindow =>
      (window_instances graph (options.time_window.getD 0) options.max_cycle_length k).ncard
  | .Temporal => (temporal_cycles graph (options.time_window.getD 0) k).ncard

-- What the searches of a mode count, cycle by cycle.
def mode_events : List (Nat × Nat) :=
  match options.mode with
  | .Simple => static_events graph options.max_cycle_length
  | .SimpleTimeWindow => window_events graph (options.time_window.getD 0) options.max_cycle_length
  | .Temporal => temporal_events graph (options.time_window.getD 0) options.max_cycle_length

-- Two of the searches with a time window lose cycles where they block or skip too much, and
-- the device leaves out the windows that overflow.
def Exact : Prop :=
  options.mode = .SimpleTimeWindow → NoWindowOverflow graph (options.time_window.getD 0) ∧
    (options.execution = .Sequential → match options.algorithm with
      | .Johnson => ∀ start ∈ starts graph,
          StartUncut graph (options.time_window.getD 0) options.max_cycle_length start
      | .ReadTarjan => ∀ start ∈ starts graph,
          ¬Misses graph (options.time_window.getD 0) options.max_cycle_length start
      | .BruteForce => True)

variable {graph options}

theorem window_tally_capped (hw : graph.WellFormed) {width : Int} {cap : Option Nat}
    (hcap : ∀ limit ∈ cap, 2 ≤ limit) {k : Nat} (hle : ¬∀ limit ∈ cap, k ≤ limit) :
    CycleHistogram.tally (window_events graph width cap) k = 0 := by
  refine CycleHistogram.tally_of_not_mem fun event he heq => hle fun limit hl => ?_
  obtain ⟨start, hs, he⟩ := List.mem_flatMap.mp he
  obtain ⟨closed, hc, rfl⟩ := List.mem_map.mp he
  rw [(window_closing_event hw hs hc).1] at heq
  obtain rfl : closed.length = k := heq
  rcases (window_closes hw hs hc).capped with rfl | hle
  · exact hcap limit hl
  · exact hle limit hl

section Tallies

variable (hw : graph.WellFormed) (hwindow : 0 ≤ options.time_window.getD 0)
  (hcap : ∀ limit ∈ options.max_cycle_length, 2 ≤ limit)

include hw in
theorem mode_events_two_le : ∀ event ∈ mode_events graph options, 2 ≤ event.1 := by
  unfold mode_events
  cases options.mode with
  | Simple => exact static_events_two_le hw
  | SimpleTimeWindow => exact window_events_two_le hw
  | Temporal => exact temporal_events_two_le hw

include hw hwindow hcap

theorem mode_tally_eq {k : Nat} (hk : 2 ≤ k) (hle : ∀ limit ∈ options.max_cycle_length, k ≤ limit) :
    CycleHistogram.tally (mode_events graph options) k = cycle_number graph options k := by
  unfold mode_events cycle_number
  cases options.mode with
  | Simple => exact static_tally_eq hw hk hle
  | SimpleTimeWindow => exact (window_instances_ncard hw k).symm
  | Temporal => exact temporal_tally_eq hw hwindow hcap hk hle

theorem mode_tally_beyond {k : Nat} (hk : 2 ≤ k)
    (hle : ¬∀ limit ∈ options.max_cycle_length, k ≤ limit) :
    CycleHistogram.tally (mode_events graph options) k = 0 := by
  unfold mode_events
  cases options.mode with
  | Simple => exact static_tally_beyond hw hk hle
  | SimpleTimeWindow => exact window_tally_capped hw hcap hle
  | Temporal => exact temporal_tally_beyond hw hwindow hcap hle

theorem mode_counts {histogram : CycleHistogram}
    (h : (∅ : CycleHistogram).record (mode_events graph options) = .ok histogram) :
    CountsUpTo options.max_cycle_length (cycle_number graph options) histogram ∧
      ∀ k, 2 ≤ k → (∀ limit ∈ options.max_cycle_length, k ≤ limit) →
        cycle_number graph options k < 2 ^ 64 :=
  CountsUpTo.of_record (mode_events_two_le hw) (fun _ hk hle => mode_tally_eq hw hwindow hcap hk hle)
    (fun _ hk hle => mode_tally_beyond hw hwindow hcap hk hle) h

end Tallies

end Modes

-- How a run may fail: by an exception of the library, or where a team of threads counts by
-- the end of the process.
def Ends (options : CycleEnumerationOptions) : Failure → Prop
  | .threw error => error.IsException
  | .terminated => options.execution = .OpenMP ∧ 1 < options.openmp_threads

section Backends

variable {machine : Machine} {graph : GraphView} {options : CycleEnumerationOptions}

-- What a run of a backend reports. Only the device cuts its numbers.
structure Reports (graph : GraphView) (options : CycleEnumerationOptions)
    (histogram : CycleHistogram) : Prop where
  counts : CountsUpTo options.max_cycle_length (cycle_number graph options) histogram
  uncut : options.execution ≠ .Cuda → ∀ k, 2 ≤ k → (∀ limit ∈ options.max_cycle_length, k ≤ limit) →
    cycle_number graph options k < 2 ^ 64

-- What the theorems about a run ask of it.
structure Admissible (graph : GraphView) (options : CycleEnumerationOptions) : Prop where
  parsed : Parsed graph
  ids : graph.vertex_count < 2 ^ 32
  valid : options.Valid
  window : ∀ width ∈ options.time_window, width < 2 ^ 63
  exact : Exact graph options

variable (h : Admissible graph options)

include h

theorem Admissible.well_formed : graph.WellFormed := h.parsed.well_formed h.ids

theorem Admissible.nonneg : 0 ≤ options.time_window.getD 0 := by
  cases hwidth : options.time_window with
  | none => exact Int.le_refl 0
  | some width => exact Int.le_of_lt (h.valid.window_pos width hwidth)

theorem Admissible.time_window (hmode : requires_time_window options.mode = true) :
    ∃ width, options.time_window = some width ∧ width ≤ MAX_TIMESTAMP := by
  cases hwidth : options.time_window with
  | none => exact absurd hwidth (h.valid.window_given hmode)
  | some width =>
      have := h.window width hwidth
      refine ⟨width, rfl, ?_⟩
      unfold MAX_TIMESTAMP
      omega

theorem Admissible.reports {histogram : CycleHistogram}
    (hrecord : (∅ : CycleHistogram).record (mode_events graph options) = .ok histogram) :
    Reports graph options histogram := by
  obtain ⟨hcounts, hfits⟩ := mode_counts h.well_formed h.nonneg h.valid.length_min hrecord
  exact ⟨hcounts, fun _ => hfits⟩

theorem Admissible.time_window_ensures (hmode : requires_time_window options.mode = true) :
    ∃ width, options.time_window = some width ∧ 0 ≤ width ∧ width ≤ MAX_TIMESTAMP ∧
      (run (value_of options.time_window) : Action Int).Ensures (fun _ => False) (· = width)
        (Ends options) := by
  obtain ⟨width, hwidth, hmax⟩ := h.time_window hmode
  refine ⟨width, hwidth, Int.le_of_lt (h.valid.window_pos width hwidth), hmax, ?_⟩
  rw [hwidth]
  exact run_ensures rfl

theorem run_sequential_throws (hexecution : options.execution = .Sequential) :
    Throws (Reports graph options) (run_sequential graph options) := by
  have hw := h.well_formed
  have hcap := h.valid.length_min
  refine Settles.weaken ?_ (fun _ => h.reports) fun _ => id
  have hnonneg := h.nonneg
  unfold run_sequential mode_events
  cases hmode : options.mode with
  | Simple =>
      dsimp only
      cases options.algorithm with
      | Johnson =>
          rw [Sequential.count_simple_cycles_johnson_eq hw hcap]
          exact CycleHistogram.record_throws _
      | ReadTarjan =>
          rw [Sequential.count_simple_cycles_read_tarjan_eq hw hcap]
          exact CycleHistogram.record_throws _
      | BruteForce =>
          rw [Sequential.count_simple_cycles_bruteforce_eq hw hcap]
          exact CycleHistogram.record_throws _
  | SimpleTimeWindow =>
      obtain ⟨width, hwidth, hmax⟩ := h.time_window (by rw [hmode]; rfl)
      obtain ⟨hno, hexact⟩ := h.exact hmode
      have hexact := hexact hexecution
      rw [hwidth] at hno hexact hnonneg ⊢
      dsimp only [Option.getD_some] at hno hexact hnonneg ⊢
      cases halgorithm : options.algorithm with
      | Johnson =>
          rw [halgorithm] at hexact
          change Throws _ (Sequential.count_time_window_cycles_johnson graph width _)
          rw [Sequential.count_time_window_cycles_johnson_eq hw hnonneg hno hcap hexact]
          exact CycleHistogram.record_throws _
      | ReadTarjan =>
          rw [halgorithm] at hexact
          change Throws _ (Sequential.count_time_window_cycles_read_tarjan graph width _)
          rw [Sequential.count_time_window_cycles_read_tarjan_eq hw hnonneg hno hcap hexact]
          exact CycleHistogram.record_throws _
      | BruteForce =>
          change Throws _ (Sequential.count_time_window_cycles_bruteforce graph width _)
          rw [Sequential.count_time_window_cycles_bruteforce_eq hw hnonneg hno hcap]
          exact CycleHistogram.record_throws _
  | Temporal =>
      obtain ⟨width, hwidth, hmax⟩ := h.time_window (by rw [hmode]; rfl)
      rw [hwidth] at hnonneg ⊢
      dsimp only [Option.getD_some] at hnonneg ⊢
      cases options.algorithm with
      | Johnson => exact Sequential.count_temporal_cycles_johnson_throws hw hnonneg hcap hmax
      | ReadTarjan => exact (Sequential.count_temporal_cycles_read_tarjan_records hw hnonneg hcap hmax).throws
      | BruteForce => exact (Sequential.count_temporal_cycles_bruteforce_records hw hnonneg hcap).throws

-- Every schedule comes to the same count.
theorem on_team_ensures {count : (schedule : List (Nat × Nat)) → Outcome CycleHistogram}
    (hexecution : options.execution = .OpenMP)
    (hends : ∀ schedule, (count schedule).Ends (1 < options.openmp_threads))
    (hcount : ∀ schedule histogram, (1 < options.openmp_threads →
        IsSchedule options.openmp_threads.toNat graph.vertex_count schedule) →
      count schedule = .returned histogram →
        (∅ : CycleHistogram).record (mode_events graph options) = .ok histogram) :
    (on_team graph options count).Ensures (fun _ => False) (Reports graph options) (Ends options) := by
  refine .picked fun found hfound => ?_
  obtain ⟨schedule, hs, rfl⟩ := hfound
  have hends := hends schedule
  have hcount := hcount schedule
  cases hrun : count schedule with
  | returned histogram => exact h.reports (hcount histogram hs hrun)
  | threw error =>
      rw [hrun] at hends
      exact hends
  | threw_runtime_error what => trivial
  | terminated =>
      rw [hrun] at hends
      exact ⟨hexecution, hends⟩

theorem run_openmp_ensures (hexecution : options.execution = .OpenMP) :
    (run_openmp machine graph options).Ensures (fun _ => False) (Reports graph options)
      (Ends options) := by
  have hw := h.well_formed
  have hcap := h.valid.length_min
  have hunsupported : (run (.error (.logic_error "unsupported OpenMP cycle counting mode")) :
      Action CycleHistogram).Ensures (fun _ => False) (Reports graph options) (Ends options) :=
    run_ensures trivial
  have hstatic : options.mode = .Simple → (on_team graph options (OpenMP.count_simple_cycles graph
      machine.openmp_available options.openmp_threads options.max_cycle_length)).Ensures
        (fun _ => False) (Reports graph options) (Ends options) := fun hmode =>
    on_team_ensures h hexecution (fun _ => count_simple_cycles_ends hw hcap)
      fun schedule histogram hs hrun => by
        rw [mode_events, hmode, ← Sequential.count_simple_cycles_bruteforce_eq hw hcap]
        exact count_simple_cycles_returned hw hcap hs hrun
  unfold run_openmp
  cases hmode : options.mode with
  | Simple =>
      dsimp only
      cases options.algorithm with
      | Johnson => exact hstatic hmode
      | ReadTarjan => exact hstatic hmode
      | BruteForce => exact hunsupported
  | SimpleTimeWindow => exact hunsupported
  | Temporal =>
      obtain ⟨width, hwidth, hnonneg, hmax, htime⟩ := h.time_window_ensures (by rw [hmode]; rfl)
      have hevents : mode_events graph options =
          temporal_events graph width options.max_cycle_length := by
        rw [mode_events, hmode, hwidth]
        rfl
      dsimp only
      cases options.algorithm with
      | Johnson =>
          refine htime.bind fun value hvalue => ?_
          subst hvalue
          refine on_team_ensures h hexecution (fun _ => count_temporal_cycles_johnson_ends hnonneg hmax
            hcap hw) fun schedule histogram hs hrun => ?_
          have hseq := Sequential.count_temporal_cycles_johnson_throws hw hnonneg hcap hmax
          rw [count_temporal_cycles_johnson_returned hnonneg hmax hcap hs h.ids hrun] at hseq
          rw [hevents]
          exact hseq
      | ReadTarjan =>
          refine htime.bind fun value hvalue => ?_
          subst hvalue
          refine on_team_ensures h hexecution (fun _ => count_temporal_cycles_read_tarjan_ends hnonneg
            hmax hcap hw) fun schedule histogram hs hrun => ?_
          have hseq := (Sequential.count_temporal_cycles_read_tarjan_records hw hnonneg hcap hmax).throws
          rw [count_temporal_cycles_read_tarjan_returned hnonneg hmax hcap hs h.ids hrun] at hseq
          rw [hevents]
          exact hseq
      | BruteForce => exact hunsupported

omit h in
theorem not_compiled_throws {checks : Except Error Unit} (hchecks : Throws (fun _ => True) checks)
    {result : Except Error CycleHistogram} (hrun : not_compiled checks result) :
    Throws (Reports graph options) result := by
  rw [hrun]
  exact hchecks.bind fun _ _ => trivial

theorem run_cuda_ensures (hexecution : options.execution = .Cuda) (scheduler : CudaScheduler)
    (timed : Bool) : (run_cuda machine graph options scheduler timed).Ensures (fun _ => False)
      (Reports graph options) (Ends options) := by
  have hunsupported : (run (.error (.logic_error "unsupported CUDA cycle counting mode")) :
      Action CycleHistogram).Ensures (fun _ => False) (Reports graph options) (Ends options) :=
    run_ensures trivial
  have hlength : ∀ limit, Throws (fun _ => True) (Cuda.validate_max_cycle_length limit) :=
    fun _ => throws_check trivial
  have hwidth : ∀ width, Throws (fun _ => True) (Cuda.validate_window_width width) :=
    fun _ => throws_check trivial
  have htimed : ∀ width limit, Throws (fun _ => True) (do
      Cuda.validate_max_cycle_length limit
      Cuda.validate_window_width width) := fun width limit => (hlength limit).bind fun _ _ => hwidth width
  have hwords : ∀ {limit} {number : Nat → Nat} {result : Except Error CycleHistogram},
      options.max_cycle_length = some limit → (∀ k, number k = cycle_number graph options k) →
      Throws (WordCounts limit number) result → Throws (Reports graph options) result := by
    intro limit number result hcap hnumber hresult
    refine hresult.weaken (fun histogram hcounts => ?_) fun _ => id
    obtain rfl : number = cycle_number graph options := funext hnumber
    refine ⟨?_, fun hother => absurd hexecution hother⟩
    rw [hcap]
    exact .of_words hcounts
  unfold run_cuda
  cases options.algorithm with
  | ReadTarjan => exact hunsupported
  | BruteForce => exact hunsupported
  | Johnson =>
      cases hcap : options.max_cycle_length with
      | none => exact hunsupported
      | some limit =>
          dsimp only
          cases hmode : options.mode with
          | Simple =>
              have hnumber : ∀ k, (simple_cycles graph k).ncard = cycle_number graph options k :=
                fun k => by rw [cycle_number, hmode]
              refine on_device_ensures fun result hresult => ?_
              cases hcuda : machine.cuda with
              | none =>
                  rw [hcuda] at hresult
                  exact not_compiled_throws (hlength limit) hresult
              | some runtime =>
                  rw [hcuda] at hresult
                  refine hwords hcap hnumber ?_
                  cases scheduler with
                  | WorkQueue => exact Cuda.count_simple_cycles_johnson_work_queue_throws h.parsed h.ids hresult
                  | Naive => exact Cuda.count_simple_cycles_johnson_throws h.parsed h.ids hresult
          | SimpleTimeWindow =>
              obtain ⟨width, hfound, hnonneg, -, htime⟩ := h.time_window_ensures (by rw [hmode]; rfl)
              have hno := (h.exact hmode).1
              have hnumber : ∀ k, (Sequential.window_instances graph width (some limit) k).ncard =
                  cycle_number graph options k := fun k => by
                rw [cycle_number, hmode, hfound, hcap]
                rfl
              rw [hfound] at hno
              refine htime.bind fun value hvalue => ?_
              subst hvalue
              refine on_device_ensures fun result hresult => ?_
              cases hcuda : machine.cuda with
              | none =>
                  rw [hcuda] at hresult
                  exact not_compiled_throws (htimed _ limit) hresult
              | some runtime =>
                  rw [hcuda] at hresult
                  exact hwords hcap hnumber
                    (Cuda.count_time_window_cycles_johnson_throws h.parsed h.ids hnonneg hno hresult)
          | Temporal =>
              obtain ⟨width, hfound, hnonneg, -, htime⟩ := h.time_window_ensures (by rw [hmode]; rfl)
              have hnumber : ∀ k, (temporal_cycles graph width k).ncard =
                  cycle_number graph options k := fun k => by
                rw [cycle_number, hmode, hfound]
                rfl
              refine htime.bind fun value hvalue => ?_
              subst hvalue
              refine on_device_ensures fun result hresult => ?_
              cases hcuda : machine.cuda with
              | none =>
                  rw [hcuda] at hresult
                  exact not_compiled_throws (htimed _ limit) hresult
              | some runtime =>
                  rw [hcuda] at hresult
                  exact hwords hcap hnumber
                    (Cuda.count_temporal_cycles_johnson_throws h.parsed h.ids hnonneg hresult)

-- On every backend and with every algorithm a run reports the numbers of the mode, or it
-- fails in a way that its caller sees.
theorem run_backend_ensures (scheduler : CudaScheduler) (timed : Bool) :
    (run_backend machine graph options scheduler timed).Ensures (fun _ => False)
      (Reports graph options) (Ends options) := by
  unfold run_backend
  cases hexecution : options.execution with
  | Sequential => exact run_ensures (run_sequential_throws h hexecution)
  | OpenMP => exact run_openmp_ensures h hexecution
  | Cuda => exact run_cuda_ensures h hexecution scheduler timed

end Backends

end CycleEnum.Cli
