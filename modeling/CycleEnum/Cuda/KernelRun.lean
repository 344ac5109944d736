import CycleEnum.Cuda.Kernel
import Mathlib.Tactic.Common

namespace CycleEnum.Cuda

open Parallel

variable {R M E : Type} {kernel : Kernel R M E} {launch : Launch} {max_cycle_length : Nat}
  {grid next : Grid R M} {thread : Nat} {events : List E} {trace : List (Nat × E)}

namespace Launch

theorem block_lt (h : thread < launch.threads) : launch.block thread < launch.grid_blocks :=
  Nat.div_lt_of_lt_mul (by rwa [threads, Nat.mul_comm] at h)

theorem block_size_pos (h : thread < launch.threads) : 0 < launch.block_size :=
  Nat.pos_of_ne_zero fun h0 => by simp [threads, h0] at h

-- The thread of a block to which a slot falls.
def owner (launch : Launch) (block slot : Nat) : Nat := block * launch.block_size + launch.index slot

theorem owner_eq_iff (hpos : 0 < launch.block_size) {block slot : Nat} :
    launch.owner block slot = thread ↔
      launch.block thread = block ∧ launch.index thread = launch.index slot := by
  have hmod : launch.index slot < launch.block_size := Nat.mod_lt _ hpos
  constructor
  · rintro rfl
    rw [Launch.block, Launch.index, Launch.owner]
    constructor
    · rw [Nat.add_comm, Nat.add_mul_div_right _ _ hpos, Nat.div_eq_of_lt hmod, Nat.zero_add]
    · rw [Nat.add_comm, Nat.add_mul_mod_self_right, Nat.mod_eq_of_lt hmod]
  · rintro ⟨rfl, h⟩
    rw [Launch.owner, ← h, Launch.block, Launch.index, Nat.mul_comm]
    exact Nat.div_add_mod thread launch.block_size

theorem owner_lt (hpos : 0 < launch.block_size) {block slot : Nat} (h : block < launch.grid_blocks) :
    launch.owner block slot < launch.threads := by
  have hmod : launch.index slot < launch.block_size := Nat.mod_lt _ hpos
  have hle : (block + 1) * launch.block_size ≤ launch.threads := Nat.mul_le_mul_right _ h
  rw [Nat.add_mul, Nat.one_mul] at hle
  unfold owner
  omega

theorem same_block (h : thread < launch.threads) (other : Nat)
    (hb : launch.block other = launch.block thread) : other < launch.threads := by
  have hlt := Launch.block_lt h
  have hpos := Launch.block_size_pos h
  have hother : launch.owner (launch.block other) other = other :=
    (owner_eq_iff hpos).mpr ⟨rfl, rfl⟩
  rw [← hother]
  exact owner_lt hpos (hb ▸ hlt)

end Launch

-- The barrier lets a thread pass when its whole block has come.
theorem arrived_iff (hpos : 0 < launch.block_size) {rank : Nat} :
    grid.arrived launch thread rank = true ↔
      ∀ other, launch.block other = launch.block thread → rank ≤ (grid.phases other).rank := by
  simp only [Grid.arrived, List.all_eq_true, List.mem_range, decide_eq_true_eq]
  constructor
  · intro h other hb
    have hother : launch.owner (launch.block other) other = other :=
      (Launch.owner_eq_iff hpos).mpr ⟨rfl, rfl⟩
    rw [← hother, Launch.owner, hb]
    exact h _ (Nat.mod_lt _ hpos)
  · intro h index hi
    apply h
    rw [Launch.block, Nat.add_comm, Nat.add_mul_div_right _ _ hpos, Nat.div_eq_of_lt hi, Nat.zero_add]

-- All that a step can do.
inductive Steps (kernel : Kernel R M E) (launch : Launch) (max_cycle_length : Nat) (grid : Grid R M)
    (thread : Nat) : Grid R M → List E → Prop
  | clear {index : Nat} (at_ : grid.phases thread = .clearing index) (le : index ≤ max_cycle_length) :
      Steps kernel launch max_cycle_length grid thread
        { grid.goto thread (.clearing (index + launch.block_size)) with
          block_histograms := Function.update grid.block_histograms (launch.block thread)
            (Function.update (grid.block_histograms (launch.block thread)) index 0) } []
  | sync {index : Nat} (at_ : grid.phases thread = .clearing index) (lt : max_cycle_length < index) :
      Steps kernel launch max_cycle_length grid thread (grid.goto thread .cleared) []
  | enter (at_ : grid.phases thread = .cleared) (come : grid.arrived launch thread 1 = true) :
      Steps kernel launch max_cycle_length grid thread (grid.goto thread (.working kernel.enter)) []
  | work {registers : R} (at_ : grid.phases thread = .working registers) :
      Steps kernel launch max_cycle_length grid thread
        { grid.goto thread ((kernel.work thread registers grid.memory).registers.elim .worked .working)
          with
          block_histograms := Function.update grid.block_histograms (launch.block thread)
            (((kernel.work thread registers grid.memory).events.filterMap kernel.bin).foldl
              increment_block_histogram (grid.block_histograms (launch.block thread)))
          memory := (kernel.work thread registers grid.memory).memory }
        (kernel.work thread registers grid.memory).events
  | leave (at_ : grid.phases thread = .worked) (come : grid.arrived launch thread 3 = true) :
      Steps kernel launch max_cycle_length grid thread
        (grid.goto thread (.flushing (launch.index thread))) []
  | flush {index : Nat} (at_ : grid.phases thread = .flushing index) (le : index ≤ max_cycle_length) :
      Steps kernel launch max_cycle_length grid thread
        { grid.goto thread (.flushing (index + launch.block_size)) with
          histogram := flush_slot grid.histogram (grid.block_histograms (launch.block thread)) index } []
  | finish {index : Nat} (at_ : grid.phases thread = .flushing index) (lt : max_cycle_length < index) :
      Steps kernel launch max_cycle_length grid thread (grid.goto thread .finished) []

theorem steps_of_step (h : kernel.step launch max_cycle_length grid thread = some (next, events)) :
    Steps kernel launch max_cycle_length grid thread next events := by
  unfold Kernel.step at h
  cases hp : grid.phases thread with
  | clearing index =>
      simp only [hp] at h
      split_ifs at h with hle
      · obtain ⟨following, hadvance, hnext⟩ := Option.map_eq_some_iff.mp h
        obtain ⟨rfl, rfl⟩ := Prod.mk.inj hnext
        obtain rfl := Launch.eq_of_advance hadvance
        exact .clear hp hle
      · obtain ⟨rfl, rfl⟩ := Prod.mk.inj (Option.some.inj h)
        exact .sync hp (Nat.lt_of_not_le hle)
  | cleared =>
      simp only [hp] at h
      split_ifs at h with hcome
      obtain ⟨rfl, rfl⟩ := Prod.mk.inj (Option.some.inj h)
      exact .enter hp hcome
  | working registers =>
      simp only [hp] at h
      obtain ⟨rfl, rfl⟩ := Prod.mk.inj (Option.some.inj h)
      exact .work hp
  | worked =>
      simp only [hp] at h
      split_ifs at h with hcome
      obtain ⟨rfl, rfl⟩ := Prod.mk.inj (Option.some.inj h)
      exact .leave hp hcome
  | flushing index =>
      simp only [hp] at h
      split_ifs at h with hle
      · obtain ⟨following, hadvance, hnext⟩ := Option.map_eq_some_iff.mp h
        obtain ⟨rfl, rfl⟩ := Prod.mk.inj hnext
        obtain rfl := Launch.eq_of_advance hadvance
        exact .flush hp hle
      · obtain ⟨rfl, rfl⟩ := Prod.mk.inj (Option.some.inj h)
        exact .finish hp (Nat.lt_of_not_le hle)
  | finished => simp only [hp] at h; cases h

-- What every step keeps holds at the end of a run, of its trace behind an earlier one.
theorem run_keeps {P : Grid R M → List (Nat × E) → Prop}
    (hstep : ∀ grid trace, P grid trace → ∀ thread < launch.threads, ∀ next events,
      Steps kernel launch max_cycle_length grid thread next events →
        P next (trace ++ events.map (thread, ·)))
    {schedule : List Nat} {past : List (Nat × E)} (hkept : P grid past)
    (hrun : kernel.run launch max_cycle_length schedule grid = some (next, trace)) :
    P next (past ++ trace) := by
  induction schedule generalizing grid past trace with
  | nil =>
      obtain ⟨rfl, rfl⟩ := Prod.mk.inj (Option.some.inj hrun)
      rwa [List.append_nil]
  | cons thread schedule ih =>
      rw [Kernel.run] at hrun
      split_ifs at hrun with ht
      obtain ⟨⟨middle, events⟩, hone, hrest⟩ := Option.bind_eq_some_iff.mp hrun
      obtain ⟨⟨last, more⟩, hlast, he⟩ := Option.map_eq_some_iff.mp hrest
      obtain ⟨rfl, rfl⟩ := Prod.mk.inj he
      rw [← List.append_assoc]
      exact ih (hstep grid past hkept thread ht middle events (steps_of_step hone)) hlast

section Pool

theorem pool_goto {phase : Phase R} (h : phase.registers kernel.enter =
    (grid.phases thread).registers kernel.enter) :
    (grid.goto thread phase).pool kernel.enter = grid.pool kernel.enter := by
  simp only [Grid.pool, Grid.goto, Pool.mk.injEq, and_true]
  funext other
  by_cases ho : other = thread
  · subst ho
    rw [Function.update_self, h]
  · rw [Function.update_of_ne ho]

theorem pool_work {effect : Effect R M E} {phase : Phase R}
    (hphase : phase = effect.registers.elim .worked .working)
    (block_histograms : Nat → Nat → Nat) :
    ({ grid.goto thread phase with
        block_histograms := block_histograms, memory := effect.memory } : Grid R M).pool
        kernel.enter = (grid.pool kernel.enter).after thread effect := by
  simp only [Grid.pool, Grid.goto, Pool.after, Pool.mk.injEq, and_true]
  funext other
  by_cases ho : other = thread
  · subst ho
    rw [Function.update_self, Function.update_self, hphase]
    cases effect.registers with
    | none => rfl
    | some registers => rfl
  · rw [Function.update_of_ne ho, Function.update_of_ne ho]

-- Around the threads' own work nothing happens to it.
theorem Steps.pool (h : Steps kernel launch max_cycle_length grid thread next events) :
    events = [] ∧ next.pool kernel.enter = grid.pool kernel.enter ∨
      ∃ registers, (grid.pool kernel.enter).registers thread = some registers ∧
        events = (kernel.work thread registers grid.memory).events ∧
        next.pool kernel.enter =
          (grid.pool kernel.enter).after thread (kernel.work thread registers grid.memory) := by
  cases h with
  | clear at_ le => exact Or.inl ⟨rfl, pool_goto (by rw [at_]; rfl)⟩
  | sync at_ lt => exact Or.inl ⟨rfl, pool_goto (by rw [at_]; rfl)⟩
  | enter at_ come => exact Or.inl ⟨rfl, pool_goto (by rw [at_]; rfl)⟩
  | @work registers at_ =>
      exact Or.inr ⟨registers, by simp only [Grid.pool, at_]; rfl, rfl, pool_work rfl _⟩
  | leave at_ come => exact Or.inl ⟨rfl, pool_goto (by rw [at_]; rfl)⟩
  | flush at_ le => exact Or.inl ⟨rfl, pool_goto (by rw [at_]; rfl)⟩
  | finish at_ lt => exact Or.inl ⟨rfl, pool_goto (by rw [at_]; rfl)⟩

theorem Steps.reaches {start : Pool R M} (ht : thread < launch.threads)
    (h : Steps kernel launch max_cycle_length grid thread next events)
    (hr : Reaches kernel.work launch.threads start (grid.pool kernel.enter) trace) :
    Reaches kernel.work launch.threads start (next.pool kernel.enter)
      (trace ++ events.map (thread, ·)) := by
  rcases h.pool with ⟨rfl, hp⟩ | ⟨registers, hrun, rfl, hp⟩
  · rw [hp]
    simpa using hr
  · rw [hp]
    exact hr.step ht hrun

end Pool

end CycleEnum.Cuda
