import CycleEnum.Cuda.HostHistogram
import CycleEnum.Cuda.Runtime

namespace CycleEnum.Cuda

open Parallel

section Results

variable {R M E : Type}

-- The results of a device function: it refuses to launch its kernel, it has nothing to
-- launch it for, or the host reads the histogram that a finished run leaves. `fresh` says
-- what the host has written into the memory of the threads.
inductive DeviceResult (launched : Except Error (Option Launch)) (kernel : Kernel R M E)
    (fresh : M → Prop) (max_cycle_length : Nat) : Except Error CycleHistogram → Prop
  | refused {error : Error} (h : launched = .error error) :
      DeviceResult launched kernel fresh max_cycle_length (.error error)
  | empty (h : launched = .ok none) : DeviceResult launched kernel fresh max_cycle_length (.ok ∅)
  | counted {launch : Launch} (h : launched = .ok (some launch)) {block_histograms : Nat → Nat → Nat}
      {memory : M} (hmemory : fresh memory) {schedule : List Nat} {grid : Grid R M}
      {trace : List (Nat × E)}
      (hrun : kernel.run launch max_cycle_length schedule
        (Grid.initial launch block_histograms memory) = some (grid, trace))
      (hdone : grid.Finished launch) :
      DeviceResult launched kernel fresh max_cycle_length
        (read_histogram max_cycle_length grid.histogram)

-- The given numbers up to the cap, each cut to a word.
structure WordCounts (max_cycle_length : Nat) (number : Nat → Nat) (histogram : CycleHistogram) :
    Prop where
  canonical : histogram.Canonical
  count_eq : ∀ k, histogram.count k =
    if 2 ≤ k ∧ k ≤ max_cycle_length then number k % 2 ^ 64 else 0

variable {max_cycle_length : Nat} {number : Nat → Nat} {histogram : CycleHistogram}

theorem WordCounts.unique {other : CycleHistogram} (h : WordCounts max_cycle_length number histogram)
    (h' : WordCounts max_cycle_length number other) : histogram = other :=
  h.canonical.ext h'.canonical fun k => by rw [h.count_eq, h'.count_eq]

theorem WordCounts.of_zero (h : ∀ k, 2 ≤ k → k ≤ max_cycle_length → number k = 0) :
    WordCounts max_cycle_length number ∅ where
  canonical := CycleHistogram.canonical_empty
  count_eq k := by
    rw [CycleHistogram.count_empty]
    split_ifs with hk
    · rw [h k hk.1 hk.2, Nat.zero_mod]
    · rfl

-- Where no number is cut, the histogram is that of a search that counts them.
theorem WordCounts.eq_of_counts (h : WordCounts max_cycle_length number histogram)
    {other : CycleHistogram}
    (hseq : CycleHistogram.Counts (.ok other) (some max_cycle_length) number)
    (hfits : ∀ k, 2 ≤ k → k ≤ max_cycle_length → number k ≤ MAX_COUNT) : histogram = other := by
  rcases hseq with ⟨found, hfound, hentries⟩ | ⟨herror, -⟩
  · obtain rfl := Except.ok.inj hfound
    refine h.canonical.ext (fun k count hentry => ?_) fun k => ?_
    · rw [hentries] at hentry
      split_ifs at hentry with hk
      exact ⟨hk.1, Option.some.inj hentry ▸ Nat.pos_of_ne_zero hk.2.2⟩
    · rw [h.count_eq, CycleHistogram.count_eq, hentries]
      simp only [Option.mem_some_iff, forall_eq']
      by_cases hk : 2 ≤ k ∧ k ≤ max_cycle_length
      · have hfit := hfits k hk.1 hk.2
        rw [if_pos hk, Nat.mod_eq_of_lt (by unfold MAX_COUNT at hfit; omega)]
        by_cases hzero : number k = 0
        · simp [hzero]
        · simp [hk, hzero]
      · rw [if_neg hk, if_neg fun h => hk ⟨h.1, h.2.1⟩]
        rfl
  · cases herror

-- What the host reads from words is what they hold.
theorem read_histogram_words (hmax : max_cycle_length ≤ INT_MAX) {words : Nat → Nat}
    (hwords : ∀ k, 2 ≤ k → k ≤ max_cycle_length → words k = number k % 2 ^ 64)
    (h : read_histogram max_cycle_length words = .ok histogram) :
    WordCounts max_cycle_length number histogram := by
  rw [read_histogram_record hmax] at h
  have hlow : ∀ event ∈ (List.range' 2 (max_cycle_length - 1)).map fun length =>
      (length, words length), 2 ≤ event.1 := fun event he => by
    obtain ⟨k, hk, rfl⟩ := List.mem_map.mp he
    exact (List.mem_range'_1.mp hk).1
  obtain ⟨hcanonical, hcount⟩ := CycleHistogram.record_count hlow h
  refine ⟨hcanonical, fun k => ?_⟩
  rw [hcount, tally_range]
  split_ifs with hk
  · exact hwords k hk.1 hk.2
  · rfl

variable {launched : Except Error (Option Launch)} {kernel : Kernel R M E} {fresh : M → Prop}
  {result : Except Error CycleHistogram}

-- What the threads of every launch count in a finished run.
def KernelCounts (launched : Except Error (Option Launch)) (kernel : Kernel R M E) (fresh : M → Prop)
    (max_cycle_length : Nat) (number : Nat → Nat) : Prop :=
  ∀ launch, launched = .ok (some launch) → max_cycle_length ≤ INT_MAX ∧ 0 < launch.threads ∧
    ∀ memory, fresh memory → ∀ block_histograms schedule grid trace,
      kernel.run launch max_cycle_length schedule (Grid.initial launch block_histograms memory) =
        some (grid, trace) → grid.Finished launch →
      ∀ k, 2 ≤ k → k ≤ max_cycle_length → total_count kernel.bin k trace = number k

-- No order of the threads' steps shows in a histogram that is returned.
theorem DeviceResult.counts
    (h : DeviceResult launched kernel fresh max_cycle_length (.ok histogram))
    (hnone : launched = .ok none → ∀ k, 2 ≤ k → k ≤ max_cycle_length → number k = 0)
    (hkernel : KernelCounts launched kernel fresh max_cycle_length number) :
    WordCounts max_cycle_length number histogram := by
  generalize hresult : (Except.ok histogram : Except Error CycleHistogram) = result at h
  cases h with
  | refused _ => cases hresult
  | empty hlaunched =>
      obtain rfl := Except.ok.inj hresult
      exact .of_zero (hnone hlaunched)
  | @counted launch hlaunched block_histograms memory hmemory schedule grid trace hrun hdone =>
      obtain ⟨hmax, hpos, hcounts⟩ := hkernel launch hlaunched
      refine read_histogram_words hmax (fun k hk hle => ?_) hresult.symm
      rw [(run_accounted hrun).finished (Launch.block_size_pos hpos) hdone hle,
        hcounts memory hmemory block_histograms schedule grid trace hrun hdone k hk hle]
      rfl

-- A launch whose threads come to their ends returns a histogram.
theorem exists_device_result {launch : Launch} (hlaunched : launched = .ok (some launch))
    (hmax : max_cycle_length ≤ INT_MAX) (hpos : 0 < launch.threads) {memory : M}
    (hmemory : fresh memory) {block_histograms : Nat → Nat → Nat}
    (hends : ∃ schedule grid trace, kernel.run launch max_cycle_length schedule
      (Grid.initial launch block_histograms memory) = some (grid, trace) ∧ grid.Finished launch) :
    ∃ histogram, DeviceResult launched kernel fresh max_cycle_length (.ok histogram) := by
  obtain ⟨schedule, grid, trace, hrun, hdone⟩ := hends
  have hwords : ∀ length ≤ max_cycle_length, grid.histogram length ≤ MAX_COUNT := fun length hle => by
    rw [(run_accounted hrun).finished (Launch.block_size_pos hpos) hdone hle]
    exact Nat.le_of_lt_succ (Nat.mod_lt _ (by decide))
  obtain ⟨histogram, hread⟩ := read_histogram_ok hmax hwords
  refine ⟨histogram, ?_⟩
  rw [← hread]
  exact .counted hlaunched hmemory hrun hdone

-- The error of a result is the reason for which no kernel was launched, or one of the
-- conversion of the counts, which cannot fail.
theorem DeviceResult.error_iff {error : Error} (hmax : ∀ launch, launched = .ok (some launch) →
      max_cycle_length ≤ INT_MAX ∧ 0 < launch.threads) :
    DeviceResult launched kernel fresh max_cycle_length (.error error) ↔ launched = .error error := by
  constructor
  · intro h
    generalize hresult : (Except.error error : Except Error CycleHistogram) = result at h
    cases h with
    | refused hlaunched => exact Except.error.inj hresult ▸ hlaunched
    | empty _ => cases hresult
    | @counted launch hlaunched _ _ _ _ grid _ hrun hdone =>
        obtain ⟨hsmall, hpos⟩ := hmax launch hlaunched
        have hwords : ∀ length ≤ max_cycle_length, grid.histogram length ≤ MAX_COUNT :=
          fun length hle => by
            rw [(run_accounted hrun).finished (Launch.block_size_pos hpos) hdone hle]
            exact Nat.le_of_lt_succ (Nat.mod_lt _ (by decide))
        obtain ⟨histogram, hread⟩ := read_histogram_ok hsmall hwords
        rw [hread] at hresult
        cases hresult
  · exact .refused

end Results

end CycleEnum.Cuda
