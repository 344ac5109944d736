import CycleEnum.Cuda.RootKernels
import CycleEnum.Cuda.Progress

namespace CycleEnum.Cuda

open CycleHistogram (tally)

variable {max_cycle_length : Nat}

-- Reading the downloaded histogram is recording each of its lengths once.
theorem read_histogram_record (hmax : max_cycle_length ≤ INT_MAX) (host_histogram : Nat → Nat) :
    read_histogram max_cycle_length host_histogram = (∅ : CycleHistogram).record
      ((List.range' 2 (max_cycle_length - 1)).map fun length => (length, host_histogram length)) := by
  have hone : ∀ (result : CycleHistogram) (length : Nat),
      length ∈ List.range' 2 (max_cycle_length - 1) →
      (if host_histogram length = 0 then Except.ok result
        else result.increment (length_of_size length) (host_histogram length)) =
      result.increment length (host_histogram length) := by
    intro result length hl
    have hrange := List.mem_range'_1.mp hl
    have hsize : length_of_size length = length :=
      length_of_size_eq (by unfold INT_MAX at hmax; omega)
    rw [hsize]
    split_ifs with hzero
    · rw [hzero, CycleHistogram.increment_zero result hrange.1]
    · rfl
  unfold read_histogram CycleHistogram.record
  rw [List.foldlM_map]
  generalize (∅ : CycleHistogram) = result
  generalize List.range' 2 (max_cycle_length - 1) = lengths at hone
  induction lengths generalizing result with
  | nil => rfl
  | cons length lengths ih =>
      rw [List.foldlM_cons, List.foldlM_cons, hone result length List.mem_cons_self]
      exact bind_congr fun next => ih next fun result length hl =>
        hone result length (List.mem_cons_of_mem _ hl)

theorem tally_range (host_histogram : Nat → Nat) (length : Nat) :
    tally ((List.range' 2 (max_cycle_length - 1)).map fun length => (length, host_histogram length))
        length = if 2 ≤ length ∧ length ≤ max_cycle_length then host_histogram length else 0 := by
  split_ifs with hin
  · have hmem : (length, host_histogram length) ∈ (List.range' 2 (max_cycle_length - 1)).map
        fun length => (length, host_histogram length) :=
      List.mem_map.mpr ⟨length, List.mem_range'_1.mpr (by omega), rfl⟩
    apply CycleHistogram.tally_of_mem _ hmem
    rw [List.pairwise_map]
    exact List.nodup_range'
  · refine CycleHistogram.tally_of_not_mem fun event he heq => ?_
    obtain ⟨k, hk, rfl⟩ := List.mem_map.mp he
    have hrange := List.mem_range'_1.mp hk
    exact hin (by dsimp only at heq; omega)

-- A histogram that holds what was recorded is read back as the record.
theorem read_histogram_eq (hmax : max_cycle_length ≤ INT_MAX) {host_histogram : Nat → Nat}
    {events : List (Nat × Nat)} (hlow : ∀ event ∈ events, 2 ≤ event.1)
    (hhigh : ∀ event ∈ events, event.1 ≤ max_cycle_length)
    (hcount : ∀ length ≤ max_cycle_length, host_histogram length = tally events length) :
    read_histogram max_cycle_length host_histogram = (∅ : CycleHistogram).record events := by
  rw [read_histogram_record hmax]
  refine CycleHistogram.record_congr (fun event he => ?_) hlow fun length => ?_
  · obtain ⟨k, hk, rfl⟩ := List.mem_map.mp he
    exact (List.mem_range'_1.mp hk).1
  · rw [tally_range]
    split_ifs with hin
    · exact hcount length hin.2
    · by_cases htwo : 2 ≤ length
      · refine (CycleHistogram.tally_of_not_mem fun event he heq => ?_).symm
        have hle := hhigh event he
        omega
      · exact (CycleHistogram.tally_eq_zero hlow (by omega)).symm

-- Counts of 64 bits can always be read.
theorem read_histogram_ok (hmax : max_cycle_length ≤ INT_MAX) {host_histogram : Nat → Nat}
    (hfit : ∀ length ≤ max_cycle_length, host_histogram length ≤ MAX_COUNT) :
    ∃ histogram, read_histogram max_cycle_length host_histogram = .ok histogram := by
  rw [read_histogram_record hmax]
  refine (CycleHistogram.record_ok ∅ _ (fun event he => ?_) fun length => ?_).imp fun _ h => h.1
  · obtain ⟨k, hk, rfl⟩ := List.mem_map.mp he
    exact (List.mem_range'_1.mp hk).1
  · rw [CycleHistogram.count_empty, Nat.zero_add, tally_range]
    split_ifs with hin
    · exact hfit length hin.2
    · exact Nat.zero_le _

section Run

open Parallel

variable {R M E : Type} {kernel : Kernel R M E} {launch : Launch} {grid : Grid R M}
  {trace : List (Nat × E)}

-- A finished launch whose threads counted the events of a record leaves the counts of
-- the record, and the host reads the record.
theorem Accounted.read_histogram (ha : Accounted kernel launch max_cycle_length grid trace)
    (hpos : 0 < launch.block_size) (hdone : grid.Finished launch)
    (hmax : max_cycle_length ≤ INT_MAX) {events : List (Nat × Nat)}
    (hlow : ∀ event ∈ events, 2 ≤ event.1) (hhigh : ∀ event ∈ events, event.1 ≤ max_cycle_length)
    (htotal : ∀ length, total_count kernel.bin length trace = tally events length)
    {histogram : CycleHistogram} (hseq : (∅ : CycleHistogram).record events = .ok histogram) :
    (∀ length ≤ max_cycle_length, grid.histogram length = histogram.count length) ∧
      Cuda.read_histogram max_cycle_length grid.histogram = .ok histogram := by
  have hcount := (CycleHistogram.record_count hlow hseq).2
  have hfits := CycleHistogram.fits_of_record hlow hseq
  have hsame : ∀ length ≤ max_cycle_length, grid.histogram length = tally events length := by
    intro length hle
    have hfit := hfits length
    rw [CycleHistogram.count_empty, MAX_COUNT] at hfit
    rw [ha.finished hpos hdone hle, htotal]
    exact wrap_eq (by omega)
  refine ⟨fun length hle => ?_, ?_⟩
  · rw [hcount, hsame length hle]
  · rw [read_histogram_eq hmax hlow hhigh hsame, hseq]

end Run

end CycleEnum.Cuda
