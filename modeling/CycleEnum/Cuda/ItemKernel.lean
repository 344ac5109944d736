import CycleEnum.Cuda.HostHistogram
import CycleEnum.Cuda.RootPools
import CycleEnum.Parallel.Items

namespace CycleEnum.Cuda

open Parallel

variable {R M : Type} {program : Program R M Event} {threads max_cycle_length : Nat}
  {same : Nat → M → M → Prop} {good : Nat → R → M → Prop} {pending : Nat → R → M → List Nat}
  {left : Nat → R → M → Nat}

-- Each thread searches its own item on its own slots: the cycles it has pending are the
-- ones it counts in a step and those pending behind it, and each step leaves less to do.
structure Searches (program : Program R M Event) (threads max_cycle_length : Nat)
    (same : Nat → M → M → Prop) (good : Nat → R → M → Prop) (pending : Nat → R → M → List Nat)
    (left : Nat → R → M → Nat) : Prop where
  owned : Owned program threads same good
  pending_same : ∀ thread < threads, ∀ register memory memory', same thread memory memory' →
    good thread register memory → pending thread register memory' = pending thread register memory
  left_same : ∀ thread < threads, ∀ register memory memory', same thread memory memory' →
    good thread register memory → left thread register memory' = left thread register memory
  counts : ∀ thread < threads, ∀ register memory, good thread register memory →
    pending thread register memory =
      (program thread register memory).events.filterMap Event.bin ++
        (program thread register memory).registers.elim [] fun next =>
          pending thread next (program thread register memory).memory
  lower : ∀ thread < threads, ∀ register memory, good thread register memory →
    ∀ next, (program thread register memory).registers = some next →
      left thread next (program thread register memory).memory < left thread register memory
  own_slots : ∀ thread < threads, ∀ register memory, good thread register memory →
    ∀ event ∈ (program thread register memory).events, OwnSlots max_cycle_length thread event

theorem Searches.items (hs : Searches program threads max_cycle_length same good pending left) :
    Items program threads same good Event.bin (OwnSlots max_cycle_length) pending left :=
  ⟨hs.owned, hs.pending_same, hs.left_same, hs.counts, hs.lower, hs.own_slots⟩

section Launch

variable {kernel : Kernel R M Event} {launch : Launch}

-- What holds wherever the threads of a launch have got to, if they count a histogram: no
-- thread left its slots, no order of the steps goes on for ever, a granted launch comes to
-- its end, and then the host reads the histogram.
structure CountsTo (kernel : Kernel R M Event) (launch : Launch) (max_cycle_length : Nat)
    (histogram : CycleHistogram) (grid : Grid R M) (trace : List (Nat × Event)) : Prop where
  own_slots : ∀ item ∈ trace, item.1 < launch.threads ∧ OwnSlots max_cycle_length item.1 item.2
  bounded : ∃ bound, ∀ more last rest,
    kernel.run launch max_cycle_length more grid = some (last, rest) → more.length ≤ bound
  completes : launch.Granted max_cycle_length → ∃ more last rest,
    kernel.run launch max_cycle_length more grid = some (last, rest) ∧ last.Finished launch
  counts : grid.Finished launch →
    ∀ length ≤ max_cycle_length, grid.histogram length = histogram.count length
  reads : grid.Finished launch → read_histogram max_cycle_length grid.histogram = .ok histogram

section Items

variable (hitems : Items kernel.work launch.threads same good kernel.bin (OwnSlots max_cycle_length)
    pending left)
  (hgood : ∀ thread memory, good thread kernel.enter memory)

omit hitems in
include hgood in
theorem all_good_start (memory : M) :
    AllGood launch.threads good (⟨fun _ => some kernel.enter, memory⟩ : Pool R M) := by
  intro thread _ register hr
  obtain rfl := Option.some.inj hr
  exact hgood thread memory

include hitems hgood

theorem items_lower (memory : M) : ∀ pool trace, Reaches kernel.work launch.threads
    ⟨fun _ => some kernel.enter, memory⟩ pool trace → ∀ thread < launch.threads, ∀ register,
      pool.registers thread = some register →
        (pool.after thread (kernel.work thread register pool.memory)).total launch.threads
            (fun thread register memory => left thread register memory + 1) <
          pool.total launch.threads fun thread register memory => left thread register memory + 1 :=
  fun _ _ hr _ ht _ hreg => hitems.total_lower (all_good_start hgood memory) hr ht hreg

-- From wherever the threads of a granted launch have got to they can be run to their end.
theorem completes_of_items (hgranted : launch.Granted max_cycle_length)
    {block_histograms : Nat → Nat → Nat} {memory : M} {schedule : List Nat} {grid : Grid R M} {trace : List (Nat × Event)}
    (hrun : kernel.run launch max_cycle_length schedule
      (Grid.initial launch block_histograms memory) = some (grid, trace)) :
    ∃ more last rest, kernel.run launch max_cycle_length more grid = some (last, rest) ∧
      last.Finished launch :=
  exists_run (items_lower hitems hgood memory) hgranted grid trace (run_reaches hrun)

section Record

variable (hpos : 0 < launch.threads) (hmax : max_cycle_length ≤ INT_MAX) {events : List (Nat × Nat)}
  (hlow : ∀ event ∈ events, 2 ≤ event.1) (hhigh : ∀ event ∈ events, event.1 ≤ max_cycle_length)
  {block_histograms : Nat → Nat → Nat} {memory : M}
  (htotal : ∀ slot, Pool.total launch.threads
      (fun thread register memory => (pending thread register memory).count slot)
      (⟨fun _ => some kernel.enter, memory⟩ : Pool R M) = CycleHistogram.tally events slot)
  {histogram : CycleHistogram} (hseq : (∅ : CycleHistogram).record events = .ok histogram)
  {schedule : List Nat} {grid : Grid R M} {trace : List (Nat × Event)}
  (hrun : kernel.run launch max_cycle_length schedule
    (Grid.initial launch block_histograms memory) = some (grid, trace))

include hpos hmax hlow hhigh htotal hseq hrun

-- Threads that count the increments of a record between them end with its histogram.
theorem finished_of_items (hdone : grid.Finished launch) :
    (∀ length ≤ max_cycle_length, grid.histogram length = histogram.count length) ∧
      read_histogram max_cycle_length grid.histogram = .ok histogram :=
  (run_accounted hrun).read_histogram (Launch.block_size_pos hpos) hdone hmax hlow hhigh
    (fun slot => (hitems.finished (all_good_start hgood memory) (run_reaches hrun)
      (hdone.registers _) slot).trans (htotal slot)) hseq

theorem counts_to_of_items : CountsTo kernel launch max_cycle_length histogram grid trace := by
  have hreach := run_reaches hrun
  have hread := finished_of_items hitems hgood hpos hmax hlow hhigh htotal hseq hrun
  refine ⟨hitems.accesses (all_good_start hgood memory) hreach, ⟨moves kernel launch max_cycle_length
    (fun pool => pool.total launch.threads fun thread register memory =>
      left thread register memory + 1) grid, fun more last rest hmore => ?_⟩,
    fun hgranted => completes_of_items hitems hgood hgranted hrun, fun hdone => (hread hdone).1,
    fun hdone => (hread hdone).2⟩
  exact Nat.le_of_add_right_le (run_length_le (items_lower hitems hgood memory) hreach hmore)

end Record

end Items

end Launch

end CycleEnum.Cuda
