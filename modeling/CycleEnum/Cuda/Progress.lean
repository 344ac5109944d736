import CycleEnum.Cuda.Accounting
import Mathlib.Algebra.Order.BigOperators.Group.Finset

namespace CycleEnum.Cuda

open Parallel

variable {R M E : Type} {kernel : Kernel R M E} {launch : Launch} {max_cycle_length : Nat}
  {grid next : Grid R M} {thread : Nat} {events : List E} {trace : List (Nat × E)}

-- The moves that the frame of a kernel still asks of a thread at most.
def phase_moves (max_cycle_length : Nat) : Phase R → Nat
  | .clearing index => 2 * max_cycle_length + 6 + (max_cycle_length + 1 - index)
  | .cleared => 2 * max_cycle_length + 5
  | .working _ => max_cycle_length + 4
  | .worked => max_cycle_length + 3
  | .flushing index => 1 + (max_cycle_length + 1 - index)
  | .finished => 0

-- With a bound for the threads' own work, which every step of it lowers.
def moves (kernel : Kernel R M E) (launch : Launch) (max_cycle_length : Nat) (own : Pool R M → Nat)
    (grid : Grid R M) : Nat :=
  (∑ thread ∈ Finset.range launch.threads, phase_moves max_cycle_length (grid.phases thread)) +
    own (grid.pool kernel.enter)

theorem sum_phase_moves_lt {phases : Nat → Phase R} {phase : Phase R} (ht : thread < launch.threads)
    (h : phase_moves max_cycle_length phase < phase_moves max_cycle_length (phases thread)) :
    ∑ other ∈ Finset.range launch.threads,
        phase_moves max_cycle_length (Function.update phases thread phase other) <
      ∑ other ∈ Finset.range launch.threads, phase_moves max_cycle_length (phases other) := by
  refine Finset.sum_lt_sum (fun other _ => ?_) ⟨thread, Finset.mem_range.mpr ht, ?_⟩
  · by_cases ho : other = thread
    · subst ho
      rw [Function.update_self]
      omega
    · rw [Function.update_of_ne ho]
  · rwa [Function.update_self]

theorem sum_phase_moves_le (launch : Launch) {phases : Nat → Phase R} {phase : Phase R}
    (h : phase_moves max_cycle_length phase ≤ phase_moves max_cycle_length (phases thread)) :
    ∑ other ∈ Finset.range launch.threads,
        phase_moves max_cycle_length (Function.update phases thread phase other) ≤
      ∑ other ∈ Finset.range launch.threads, phase_moves max_cycle_length (phases other) := by
  refine Finset.sum_le_sum fun other _ => ?_
  by_cases ho : other = thread
  · subst ho
    rwa [Function.update_self]
  · rw [Function.update_of_ne ho]

theorem Steps.moves_lt {own : Pool R M → Nat} (ht : thread < launch.threads)
    (h : Steps kernel launch max_cycle_length grid thread next events)
    (hown : ∀ registers, (grid.pool kernel.enter).registers thread = some registers →
      own ((grid.pool kernel.enter).after thread (kernel.work thread registers grid.memory)) <
        own (grid.pool kernel.enter)) :
    moves kernel launch max_cycle_length own next < moves kernel launch max_cycle_length own grid := by
  have hpos := Launch.block_size_pos ht
  have hsame : ∀ phase : Phase R, phase.registers kernel.enter =
      (grid.phases thread).registers kernel.enter →
      phase_moves max_cycle_length phase < phase_moves max_cycle_length (grid.phases thread) →
      moves kernel launch max_cycle_length own (grid.goto thread phase) <
        moves kernel launch max_cycle_length own grid := by
    intro phase hr hlt
    rw [moves, moves, pool_goto hr]
    exact Nat.add_lt_add_right (sum_phase_moves_lt ht hlt) _
  cases h with
  | @clear index hat hle =>
      refine hsame (.clearing (index + launch.block_size)) (by rw [hat]; rfl) ?_
      rw [hat, phase_moves, phase_moves]
      omega
  | sync hat hlt =>
      refine hsame .cleared (by rw [hat]; rfl) ?_
      rw [hat, phase_moves, phase_moves]
      omega
  | enter hat hcome =>
      refine hsame (.working kernel.enter) (by rw [hat]; rfl) ?_
      rw [hat, phase_moves, phase_moves]
      omega
  | @work registers hat =>
      have hrun : (grid.pool kernel.enter).registers thread = some registers := by
        simp only [Grid.pool, hat]
        rfl
      have hlt := hown registers hrun
      have hle : phase_moves max_cycle_length
          ((kernel.work thread registers grid.memory).registers.elim .worked .working) ≤
          phase_moves max_cycle_length (grid.phases thread) := by
        rw [hat]
        cases (kernel.work thread registers grid.memory).registers with
        | none =>
            change max_cycle_length + 3 ≤ max_cycle_length + 4
            omega
        | some next => exact Nat.le_refl _
      have hsum := sum_phase_moves_le launch hle
      rw [moves, moves, pool_work rfl]
      exact Nat.add_lt_add_of_le_of_lt hsum hlt
  | leave hat hcome =>
      refine hsame (.flushing (launch.index thread)) (by rw [hat]; rfl) ?_
      rw [hat, phase_moves, phase_moves]
      omega
  | @flush index hat hle =>
      refine hsame (.flushing (index + launch.block_size)) (by rw [hat]; rfl) ?_
      rw [hat, phase_moves, phase_moves]
      omega
  | finish hat hlt =>
      refine hsame .finished (by rw [hat]; rfl) ?_
      rw [hat, phase_moves, phase_moves]
      omega

-- Unless all threads have finished, one of them can go on.
theorem exists_step (kernel : Kernel R M E) (hgranted : launch.Granted max_cycle_length)
    (hdone : ¬grid.Finished launch) :
    ∃ thread < launch.threads, ∃ next events,
      kernel.step launch max_cycle_length grid thread = some (next, events) := by
  by_cases hfree : ∃ thread < launch.threads,
      (∃ index, grid.phases thread = .clearing index) ∨
      (∃ registers, grid.phases thread = .working registers) ∨
      ∃ index, grid.phases thread = .flushing index
  · obtain ⟨thread, ht, ⟨index, hat⟩ | ⟨registers, hat⟩ | ⟨index, hat⟩⟩ := hfree
    · refine ⟨thread, ht, ?_⟩
      rw [Kernel.step, hat]
      dsimp only
      split_ifs with hle
      · rw [hgranted.advance_eq hle]
        exact ⟨_, _, rfl⟩
      · exact ⟨_, _, rfl⟩
    · refine ⟨thread, ht, ?_⟩
      rw [Kernel.step, hat]
      exact ⟨_, _, rfl⟩
    · refine ⟨thread, ht, ?_⟩
      rw [Kernel.step, hat]
      dsimp only
      split_ifs with hle
      · rw [hgranted.advance_eq hle]
        exact ⟨_, _, rfl⟩
      · exact ⟨_, _, rfl⟩
  -- every thread stands at a barrier or has finished
  have hwait : ∀ other < launch.threads, grid.phases other = .cleared ∨
      grid.phases other = .worked ∨ grid.phases other = .finished := by
    intro other ho
    cases hp : grid.phases other with
    | clearing index => exact absurd ⟨other, ho, Or.inl ⟨index, hp⟩⟩ hfree
    | cleared => exact Or.inl rfl
    | working registers => exact absurd ⟨other, ho, Or.inr (Or.inl ⟨registers, hp⟩)⟩ hfree
    | worked => exact Or.inr (Or.inl rfl)
    | flushing index => exact absurd ⟨other, ho, Or.inr (Or.inr ⟨index, hp⟩)⟩ hfree
    | finished => exact Or.inr (Or.inr rfl)
  have hranks : ∀ other < launch.threads, 1 ≤ (grid.phases other).rank ∧
      (grid.phases other ≠ .cleared → 3 ≤ (grid.phases other).rank) := by
    intro other ho
    rcases hwait other ho with hp | hp | hp <;> simp [hp, Phase.rank]
  by_cases hcleared : ∃ thread < launch.threads, grid.phases thread = .cleared
  · obtain ⟨thread, ht, hat⟩ := hcleared
    have hcome : grid.arrived launch thread 1 = true :=
      (arrived_iff (Launch.block_size_pos ht)).mpr fun other hb =>
        (hranks other (Launch.same_block ht other hb)).1
    refine ⟨thread, ht, ?_⟩
    rw [Kernel.step, hat]
    dsimp only
    rw [if_pos hcome]
    exact ⟨_, _, rfl⟩
  · unfold Grid.Finished at hdone
    push Not at hdone
    obtain ⟨thread, ht, hat⟩ := hdone
    have hnot : ∀ other < launch.threads, grid.phases other ≠ .cleared := fun other ho hp =>
      hcleared ⟨other, ho, hp⟩
    have hworked : grid.phases thread = .worked := by
      rcases hwait thread ht with hp | hp | hp
      · exact absurd hp (hnot thread ht)
      · exact hp
      · exact absurd hp hat
    have hcome : grid.arrived launch thread 3 = true :=
      (arrived_iff (Launch.block_size_pos ht)).mpr fun other hb =>
        have ho := Launch.same_block ht other hb
        (hranks other ho).2 (hnot other ho)
    refine ⟨thread, ht, ?_⟩
    rw [Kernel.step, hworked]
    dsimp only
    rw [if_pos hcome]
    exact ⟨_, _, rfl⟩

section Ends

variable {start : Pool R M} {own : Pool R M → Nat}
  (hown : ∀ pool trace, Reaches kernel.work launch.threads start pool trace →
    ∀ thread < launch.threads, ∀ registers, pool.registers thread = some registers →
      own (pool.after thread (kernel.work thread registers pool.memory)) < own pool)

include hown

-- A run is never longer than the bound, so no thread runs on for ever.
theorem run_length_le {schedule : List Nat}
    (hr : Reaches kernel.work launch.threads start (grid.pool kernel.enter) trace)
    {more : List (Nat × E)}
    (hrun : kernel.run launch max_cycle_length schedule grid = some (next, more)) :
    schedule.length + moves kernel launch max_cycle_length own next ≤
      moves kernel launch max_cycle_length own grid := by
  induction schedule generalizing grid trace more with
  | nil =>
      obtain ⟨rfl, rfl⟩ := Prod.mk.inj (Option.some.inj hrun)
      simp
  | cons thread schedule ih =>
      rw [Kernel.run] at hrun
      split_ifs at hrun with ht
      obtain ⟨⟨middle, events⟩, hone, hrest⟩ := Option.bind_eq_some_iff.mp hrun
      obtain ⟨⟨last, later⟩, hlast, he⟩ := Option.map_eq_some_iff.mp hrest
      obtain ⟨rfl, rfl⟩ := Prod.mk.inj he
      have hstep := steps_of_step hone
      have hle := ih (hstep.reaches ht hr) hlast
      have hlt := hstep.moves_lt ht (hown _ _ hr thread ht)
      rw [List.length_cons]
      omega

-- From every grid of a granted launch some order of steps brings all threads to their ends.
theorem exists_run (hgranted : launch.Granted max_cycle_length) (grid : Grid R M) (trace : List (Nat × E))
    (hr : Reaches kernel.work launch.threads start (grid.pool kernel.enter) trace) :
    ∃ schedule last more, kernel.run launch max_cycle_length schedule grid = some (last, more) ∧
      last.Finished launch := by
  induction hm : moves kernel launch max_cycle_length own grid using Nat.strongRecOn
    generalizing grid trace with
  | ind m ih =>
      by_cases hdone : grid.Finished launch
      · exact ⟨[], grid, [], rfl, hdone⟩
      · obtain ⟨thread, ht, middle, events, hone⟩ :=
          exists_step kernel hgranted hdone
        have hstep := steps_of_step hone
        have hlt := hstep.moves_lt ht (hown _ _ hr thread ht)
        obtain ⟨schedule, last, more, hrun, hend⟩ :=
          ih _ (hm ▸ hlt) middle _ (hstep.reaches ht hr) rfl
        refine ⟨thread :: schedule, last, events.map (thread, ·) ++ more, ?_, hend⟩
        rw [Kernel.run, if_pos ht, hone, Option.bind_some]
        dsimp only
        rw [hrun]
        rfl

end Ends

section Run

variable {block_histograms : Nat → Nat → Nat} {memory : M} {schedule : List Nat}
  (hrun : kernel.run launch max_cycle_length schedule (Grid.initial launch block_histograms memory) =
    some (grid, trace))

include hrun

-- A run of the kernel from its launch is one of the threads' own work inside.
theorem run_reaches : Reaches kernel.work launch.threads ⟨fun _ => some kernel.enter, memory⟩
    (grid.pool kernel.enter) trace := by
  have hkept := run_keeps (P := fun grid trace => Reaches kernel.work launch.threads
    ⟨fun _ => some kernel.enter, memory⟩ (grid.pool kernel.enter) trace)
    (fun grid trace hr thread ht next events h => h.reaches ht hr) .start hrun
  simpa using hkept

theorem run_accounted : Accounted kernel launch max_cycle_length grid trace := by
  have hkept := run_keeps (fun grid trace ha thread ht next events h => Accounted.step ha ht h)
    (accounted_initial block_histograms memory) hrun
  simpa using hkept

end Run

theorem Grid.Finished.registers (hdone : grid.Finished launch) (enter : R) :
    ∀ thread < launch.threads, (grid.pool enter).registers thread = none := by
  intro thread ht
  simp only [Grid.pool, hdone thread ht]
  rfl

end CycleEnum.Cuda
