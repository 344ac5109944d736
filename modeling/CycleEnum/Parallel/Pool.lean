import Mathlib.Algebra.BigOperators.Group.Finset.Basic
import Mathlib.Algebra.Order.Group.Nat

namespace CycleEnum.Parallel

-- What one step of a thread does. A thread without registers has ended.
structure Effect (R M E : Type) where
  registers : Option R
  memory : M
  events : List E

-- The step of every thread on its own registers and the memory that all share.
abbrev Program (R M E : Type) := Nat → R → M → Effect R M E

structure Pool (R M : Type) where
  registers : Nat → Option R
  memory : M

variable {R M E : Type}

def Pool.after (pool : Pool R M) (thread : Nat) (effect : Effect R M E) : Pool R M :=
  ⟨Function.update pool.registers thread effect.registers, effect.memory⟩

-- The pools that the threads get to in any order of their steps, with the events
-- on the way, each under its thread.
inductive Reaches (program : Program R M E) (threads : Nat) (start : Pool R M) :
    Pool R M → List (Nat × E) → Prop
  | start : Reaches program threads start start []
  | step {pool : Pool R M} {trace : List (Nat × E)} {thread : Nat} {registers : R}
      (reached : Reaches program threads start pool trace) (launched : thread < threads)
      (running : pool.registers thread = some registers) :
      Reaches program threads start (pool.after thread (program thread registers pool.memory))
        (trace ++ (program thread registers pool.memory).events.map (thread, ·))

variable {program : Program R M E} {threads : Nat} {start pool : Pool R M}
  {trace : List (Nat × E)}

-- What holds of every step's events holds of the trace.
theorem Reaches.trace_of {shows : Nat → E → Prop} (h : Reaches program threads start pool trace)
    (hstep : ∀ pool trace, Reaches program threads start pool trace → ∀ thread < threads,
      ∀ registers, pool.registers thread = some registers →
        ∀ event ∈ (program thread registers pool.memory).events, shows thread event) :
    ∀ item ∈ trace, item.1 < threads ∧ shows item.1 item.2 := by
  induction h with
  | start => simp
  | step reached launched running ih =>
      intro item hi
      rcases List.mem_append.mp hi with hi | hi
      · exact ih item hi
      · obtain ⟨event, he, rfl⟩ := List.mem_map.mp hi
        exact ⟨launched, hstep _ _ reached _ launched _ running event he⟩

-- Each thread owns a part of the memory. A thread in a good state stays good, and it
-- changes no other thread's part.
structure Owned (program : Program R M E) (threads : Nat) (same : Nat → M → M → Prop)
    (good : Nat → R → M → Prop) : Prop where
  keeps : ∀ thread < threads, ∀ registers memory, good thread registers memory →
    ∀ next, (program thread registers memory).registers = some next →
      good thread next (program thread registers memory).memory
  apart : ∀ thread < threads, ∀ registers memory, good thread registers memory →
    ∀ other < threads, other ≠ thread → same other memory (program thread registers memory).memory
  stable : ∀ thread < threads, ∀ registers memory memory', same thread memory memory' →
    good thread registers memory → good thread registers memory'

section Owned

variable {same : Nat → M → M → Prop} {good : Nat → R → M → Prop}

def AllGood (threads : Nat) (good : Nat → R → M → Prop) (pool : Pool R M) : Prop :=
  ∀ thread < threads, ∀ registers, pool.registers thread = some registers →
    good thread registers pool.memory

theorem Owned.step (h : Owned program threads same good) (hall : AllGood threads good pool)
    {thread : Nat} {registers : R} (ht : thread < threads)
    (hr : pool.registers thread = some registers) :
    AllGood threads good (pool.after thread (program thread registers pool.memory)) := by
  intro other ho next hnext
  have hg := hall thread ht registers hr
  by_cases he : other = thread
  · subst he
    exact h.keeps other ht registers _ hg next (by simpa [Pool.after] using hnext)
  · have hsame := h.apart thread ht registers _ hg other ho he
    exact h.stable other ho next _ _ hsame
      (hall other ho next (by simpa [Pool.after, he] using hnext))

theorem Owned.reaches (h : Owned program threads same good)
    (hr : Reaches program threads start pool trace) (hall : AllGood threads good start) :
    AllGood threads good pool := by
  induction hr with
  | start => exact hall
  | step reached launched running ih => exact h.step ih launched running

end Owned

section Total

variable {S : Type} [AddCommMonoid S] {held : Nat → R → M → S}

-- What the running threads hold in sum.
def Pool.total (threads : Nat) (held : Nat → R → M → S) (pool : Pool R M) : S :=
  ∑ thread ∈ Finset.range threads,
    (pool.registers thread).elim 0 fun registers => held thread registers pool.memory

-- A step changes one summand only, if the others depend on their threads' own parts.
theorem Pool.total_after (effect : Effect R M E) {thread : Nat} {registers : R}
    (ht : thread < threads) (hr : pool.registers thread = some registers)
    (hothers : ∀ other < threads, other ≠ thread → ∀ registers, pool.registers other = some registers →
      held other registers effect.memory = held other registers pool.memory) :
    ∃ rest, pool.total threads held = held thread registers pool.memory + rest ∧
      (pool.after thread effect).total threads held =
        (effect.registers.elim 0 fun next => held thread next effect.memory) + rest := by
  have hmem : thread ∈ Finset.range threads := Finset.mem_range.mpr ht
  refine ⟨∑ other ∈ (Finset.range threads).erase thread,
    (pool.registers other).elim 0 fun registers => held other registers pool.memory, ?_, ?_⟩
  · rw [Pool.total, ← Finset.add_sum_erase _ _ hmem, hr]
    rfl
  · rw [Pool.total, ← Finset.add_sum_erase _ _ hmem]
    congr 1
    · simp [Pool.after]
    · refine Finset.sum_congr rfl fun other ho => ?_
      obtain ⟨hne, ho⟩ := Finset.mem_erase.mp ho
      simp only [Pool.after, Function.update_of_ne hne]
      cases hp : pool.registers other with
      | none => rfl
      | some registers => exact hothers other (Finset.mem_range.mp ho) hne registers hp

variable {same : Nat → M → M → Prop} {good : Nat → R → M → Prop} {free : M → S} {shown : E → S}

-- In a step of a pool whose threads are good only the moving thread's summand changes.
theorem Owned.total_after (h : Owned program threads same good) (hall : AllGood threads good pool)
    (hheld : ∀ thread < threads, ∀ registers memory memory', same thread memory memory' →
      good thread registers memory → held thread registers memory' = held thread registers memory)
    {thread : Nat} {registers : R} (ht : thread < threads)
    (hr : pool.registers thread = some registers) :
    ∃ rest, pool.total threads held = held thread registers pool.memory + rest ∧
      (pool.after thread (program thread registers pool.memory)).total threads held =
        ((program thread registers pool.memory).registers.elim 0 fun next =>
          held thread next (program thread registers pool.memory).memory) + rest :=
  Pool.total_after _ ht hr fun other ho hne next hnext => hheld other ho next _ _
    (h.apart thread ht registers _ (hall thread ht registers hr) other ho hne)
    (hall other ho next hnext)

-- What the events show, what the threads hold and what is free add up to the same
-- at all times if each step moves it among these.
theorem Owned.conserved (h : Owned program threads same good) (hall : AllGood threads good start)
    (hheld : ∀ thread < threads, ∀ registers memory memory', same thread memory memory' →
      good thread registers memory → held thread registers memory' = held thread registers memory)
    (hstep : ∀ pool trace, Reaches program threads start pool trace → ∀ thread < threads,
      ∀ registers, pool.registers thread = some registers →
        ((program thread registers pool.memory).events.map shown).sum +
            ((program thread registers pool.memory).registers.elim 0 fun next =>
              held thread next (program thread registers pool.memory).memory) +
            free (program thread registers pool.memory).memory =
          held thread registers pool.memory + free pool.memory)
    (hr : Reaches program threads start pool trace) :
    (trace.map fun item => shown item.2).sum + pool.total threads held + free pool.memory =
      start.total threads held + free start.memory := by
  induction hr with
  | start => simp
  | @step pool trace thread registers reached launched running ih =>
      obtain ⟨rest, hbefore, hafter⟩ :=
        h.total_after (h.reaches reached hall) hheld launched running
      have hone := hstep pool trace reached thread launched registers running
      have hevents : (((program thread registers pool.memory).events.map (thread, ·)).map
          fun item => shown item.2) = (program thread registers pool.memory).events.map shown := by
        rw [List.map_map]
        rfl
      rw [← ih, hbefore, hafter, List.map_append, List.sum_append, hevents]
      calc _ = (trace.map fun item => shown item.2).sum + rest +
            (((program thread registers pool.memory).events.map shown).sum +
              ((program thread registers pool.memory).registers.elim 0 fun next =>
                held thread next (program thread registers pool.memory).memory) +
              free (program thread registers pool.memory).memory) := by
            simp only [Pool.after]
            ac_rfl
        _ = _ := by
            rw [hone]
            ac_rfl

-- The same where nothing is free.
theorem Owned.conserved_held (h : Owned program threads same good) (hall : AllGood threads good start)
    (hheld : ∀ thread < threads, ∀ registers memory memory', same thread memory memory' →
      good thread registers memory → held thread registers memory' = held thread registers memory)
    (hstep : ∀ pool trace, Reaches program threads start pool trace → ∀ thread < threads,
      ∀ registers, pool.registers thread = some registers →
        ((program thread registers pool.memory).events.map shown).sum +
            ((program thread registers pool.memory).registers.elim 0 fun next =>
              held thread next (program thread registers pool.memory).memory) =
          held thread registers pool.memory)
    (hr : Reaches program threads start pool trace) :
    (trace.map fun item => shown item.2).sum + pool.total threads held = start.total threads held := by
  obtain ⟨free, hfree⟩ : ∃ free : M → S, ∀ memory, free memory = 0 := ⟨fun _ => 0, fun _ => rfl⟩
  have hsum : (trace.map fun item => shown item.2).sum + pool.total threads held + free pool.memory =
      start.total threads held + free start.memory :=
    h.conserved hall hheld (fun pool trace reached thread ht registers hreg => by
      rw [hstep pool trace reached thread ht registers hreg, hfree, hfree]) hr
  rwa [hfree, hfree, add_zero, add_zero] at hsum

end Total

end CycleEnum.Parallel
