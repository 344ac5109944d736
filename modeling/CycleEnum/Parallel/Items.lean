import CycleEnum.Parallel.Pool
import Mathlib.Algebra.Order.Ring.Nat

namespace CycleEnum.Parallel

variable {R M E : Type} {program : Program R M E} {threads : Nat} {same : Nat → M → M → Prop}
  {good : Nat → R → M → Prop} {bin : E → Option Nat} {own : Nat → E → Prop}
  {pending : Nat → R → M → List Nat} {left : Nat → R → M → Nat}

-- Each thread works off its own item on its own part of the memory: what it has pending
-- is what it counts in a step and what is pending behind it, and each step leaves less to
-- do.
structure Items (program : Program R M E) (threads : Nat) (same : Nat → M → M → Prop)
    (good : Nat → R → M → Prop) (bin : E → Option Nat) (own : Nat → E → Prop)
    (pending : Nat → R → M → List Nat) (left : Nat → R → M → Nat) : Prop where
  owned : Owned program threads same good
  pending_same : ∀ thread < threads, ∀ register memory memory', same thread memory memory' →
    good thread register memory → pending thread register memory' = pending thread register memory
  left_same : ∀ thread < threads, ∀ register memory memory', same thread memory memory' →
    good thread register memory → left thread register memory' = left thread register memory
  counts : ∀ thread < threads, ∀ register memory, good thread register memory →
    pending thread register memory =
      (program thread register memory).events.filterMap bin ++
        (program thread register memory).registers.elim [] fun next =>
          pending thread next (program thread register memory).memory
  lower : ∀ thread < threads, ∀ register memory, good thread register memory →
    ∀ next, (program thread register memory).registers = some next →
      left thread next (program thread register memory).memory < left thread register memory
  own_part : ∀ thread < threads, ∀ register memory, good thread register memory →
    ∀ event ∈ (program thread register memory).events, own thread event

-- What one step of a thread in a good state may do: end with nothing pending, or go on.
inductive ItemStep (same : Nat → M → M → Prop) (good : Nat → R → M → Prop) (bin : E → Option Nat)
    (own : Nat → E → Prop) (pending : Nat → R → M → List Nat) (left : Nat → R → M → Nat)
    (thread : Nat) (register : R) (memory : M) : Effect R M E → Prop
  | ends (nothing : pending thread register memory = []) :
      ItemStep same good bin own pending left thread register memory ⟨none, memory, []⟩
  | goes {next : R} {memory' : M} {events : List E} (keeps : good thread next memory')
      (apart : ∀ other, other ≠ thread → same other memory memory')
      (counts : pending thread register memory =
        events.filterMap bin ++ pending thread next memory')
      (lower : left thread next memory' < left thread register memory)
      (own_part : ∀ event ∈ events, own thread event) :
      ItemStep same good bin own pending left thread register memory ⟨some next, memory', events⟩

-- One statement on the steps gives all that holds of the threads together.
theorem items_of_steps (hrefl : ∀ thread memory, same thread memory memory)
    (hstable : ∀ thread < threads, ∀ register memory memory', same thread memory memory' →
      good thread register memory → good thread register memory' ∧
        pending thread register memory' = pending thread register memory ∧
        left thread register memory' = left thread register memory)
    (hstep : ∀ thread < threads, ∀ register memory, good thread register memory →
      ItemStep same good bin own pending left thread register memory
        (program thread register memory)) :
    Items program threads same good bin own pending left where
  owned := {
    keeps := fun thread ht register memory hgood next hnext => by
      have hone := hstep thread ht register memory hgood
      generalize program thread register memory = effect at hone hnext ⊢
      cases hone with
      | ends nothing => cases hnext
      | goes keeps apart counts lower own_part =>
          obtain rfl := Option.some.inj hnext
          exact keeps
    apart := fun thread ht register memory hgood other ho hne => by
      have hone := hstep thread ht register memory hgood
      generalize program thread register memory = effect at hone ⊢
      cases hone with
      | ends nothing => exact hrefl other memory
      | goes keeps apart counts lower own_part => exact apart other hne
    stable := fun thread ht register memory memory' hsame hgood =>
      (hstable thread ht register memory memory' hsame hgood).1 }
  pending_same thread ht register memory memory' hsame hgood :=
    (hstable thread ht register memory memory' hsame hgood).2.1
  left_same thread ht register memory memory' hsame hgood :=
    (hstable thread ht register memory memory' hsame hgood).2.2
  counts thread ht register memory hgood := by
    have hone := hstep thread ht register memory hgood
    generalize program thread register memory = effect at hone ⊢
    cases hone with
    | ends nothing => exact nothing
    | goes keeps apart counts lower own_part => exact counts
  lower thread ht register memory hgood next hnext := by
    have hone := hstep thread ht register memory hgood
    generalize program thread register memory = effect at hone hnext ⊢
    cases hone with
    | ends nothing => cases hnext
    | goes keeps apart counts lower own_part =>
        obtain rfl := Option.some.inj hnext
        exact lower
  own_part thread ht register memory hgood := by
    have hone := hstep thread ht register memory hgood
    generalize program thread register memory = effect at hone ⊢
    cases hone with
    | ends nothing => simp
    | goes keeps apart counts lower own_part => exact own_part

-- How often an event counts a slot.
def bin_count {α : Type} (bin : α → Option Nat) (slot : Nat) (event : α) : Nat :=
  (bin event).toList.count slot

theorem sum_bin_count {α : Type} (bin : α → Option Nat) (slot : Nat) (items : List α) :
    (items.map (bin_count bin slot)).sum = (items.filterMap bin).count slot := by
  induction items with
  | nil => rfl
  | cons item items ih =>
      rw [List.map_cons, List.sum_cons, ih, bin_count]
      cases h : bin item with
      | none =>
          rw [List.filterMap_cons_none h]
          exact Nat.zero_add _
      | some b =>
          rw [List.filterMap_cons_some h, ← List.singleton_append, List.count_append]
          rfl

section Pool

variable {start pool : Pool R M} {trace : List (Nat × E)}
  (hs : Items program threads same good bin own pending left)
  (hgood : AllGood threads good start) (hr : Reaches program threads start pool trace)

include hs hgood hr

theorem Items.good_at : AllGood threads good pool := hs.owned.reaches hr hgood

theorem Items.accesses : ∀ item ∈ trace, item.1 < threads ∧ own item.1 item.2 := by
  apply hr.trace_of
  intro pool trace reached thread ht register hreg event he
  exact hs.own_part thread ht register _ (hs.good_at hgood reached thread ht register hreg) event he

-- The counts that were made and those pending are at all times those pending at the start.
theorem Items.conserved (slot : Nat) :
    (trace.filterMap fun item => bin item.2).count slot +
        pool.total threads (fun thread register memory => (pending thread register memory).count slot) =
      start.total threads fun thread register memory =>
        (pending thread register memory).count slot := by
  have hsum : (trace.map fun item => bin_count bin slot item.2).sum +
      pool.total threads (fun thread register memory => (pending thread register memory).count slot) =
      start.total threads fun thread register memory =>
        (pending thread register memory).count slot := by
    refine hs.owned.conserved_held hgood ?_ ?_ hr
    · intro thread ht register memory memory' hsame hg
      rw [hs.pending_same thread ht register memory memory' hsame hg]
    · intro pool trace reached thread ht register hreg
      have hcounts := hs.counts thread ht register _
        (hs.good_at hgood reached thread ht register hreg)
      have helim : ((program thread register pool.memory).registers.elim 0 fun next =>
          (pending thread next (program thread register pool.memory).memory).count slot) =
          ((program thread register pool.memory).registers.elim [] fun next =>
            pending thread next (program thread register pool.memory).memory).count slot := by
        cases (program thread register pool.memory).registers with
        | none => rfl
        | some next => rfl
      rw [sum_bin_count, helim, hcounts, List.count_append]
  have hcount : (trace.map fun item => bin_count bin slot item.2).sum = _ :=
    sum_bin_count (fun item : Nat × E => bin item.2) slot trace
  rwa [hcount] at hsum

-- The counts when no thread is running are those that were pending at the start.
theorem Items.finished (hdone : ∀ thread < threads, pool.registers thread = none) (slot : Nat) :
    (trace.filterMap fun item => bin item.2).count slot =
      start.total threads fun thread register memory => (pending thread register memory).count slot := by
  have hconserved := hs.conserved hgood hr slot
  have hzero : (pool.total threads fun thread register memory =>
      (pending thread register memory).count slot) = 0 :=
    Finset.sum_eq_zero fun thread ht => by rw [hdone thread (Finset.mem_range.mp ht)]; rfl
  rwa [hzero, Nat.add_zero] at hconserved

theorem Items.total_lower {thread : Nat} {register : R} (ht : thread < threads)
    (hreg : pool.registers thread = some register) :
    ((pool.after thread (program thread register pool.memory)).total threads
        fun thread register memory => left thread register memory + 1) <
      pool.total threads fun thread register memory => left thread register memory + 1 := by
  have hall := hs.good_at hgood hr
  have hg := hall thread ht register hreg
  have hafter : ∃ rest, (pool.total threads fun thread register memory =>
      left thread register memory + 1) = left thread register pool.memory + 1 + rest ∧
      ((pool.after thread (program thread register pool.memory)).total threads
        fun thread register memory => left thread register memory + 1) =
        ((program thread register pool.memory).registers.elim 0 fun next =>
          left thread next (program thread register pool.memory).memory + 1) + rest :=
    hs.owned.total_after hall (fun thread ht register memory memory' hsame hg => by
      rw [hs.left_same thread ht register memory memory' hsame hg]) ht hreg
  obtain ⟨rest, hbefore, hafter⟩ := hafter
  rw [hbefore, hafter]
  cases hnext : (program thread register pool.memory).registers with
  | none =>
      rw [Option.elim_none]
      omega
  | some next =>
      have hlower := hs.lower thread ht register pool.memory hg next hnext
      rw [Option.elim_some]
      omega

end Pool

-- A run that has a bound which every step lowers ends, whatever the order of the steps.
def Ends (program : Program R M E) (threads : Nat) (start : Pool R M) : Prop :=
  ∃ moves : Pool R M → Nat, ∀ pool trace, Reaches program threads start pool trace →
    ∀ thread < threads, ∀ register, pool.registers thread = some register →
      moves (pool.after thread (program thread register pool.memory)) < moves pool

theorem Items.ends {start : Pool R M} (hs : Items program threads same good bin own pending left)
    (hgood : AllGood threads good start) : Ends program threads start := by
  refine ⟨fun pool => pool.total threads fun thread register memory =>
    left thread register memory + 1, ?_⟩
  intro pool trace hr thread ht register hreg
  exact hs.total_lower hgood hr ht hreg

-- While a thread is left to run, one more step brings the bound down.
theorem Ends.exists_end {start : Pool R M} (h : Ends program threads start) :
    ∃ pool trace, Reaches program threads start pool trace ∧
      ∀ thread < threads, pool.registers thread = none := by
  obtain ⟨moves, hlower⟩ := h
  have hend : ∀ bound pool trace, Reaches program threads start pool trace → moves pool < bound →
      ∃ pool trace, Reaches program threads start pool trace ∧
        ∀ thread < threads, pool.registers thread = none := by
    intro bound
    induction bound with
    | zero => exact fun _ _ _ hbound => absurd hbound (Nat.not_lt_zero _)
    | succ bound ih =>
        intro pool trace hr hbound
        by_cases hdone : ∀ thread < threads, pool.registers thread = none
        · exact ⟨pool, trace, hr, hdone⟩
        · push Not at hdone
          obtain ⟨thread, ht, hrunning⟩ := hdone
          obtain ⟨register, hregister⟩ := Option.ne_none_iff_exists'.mp hrunning
          have hlt := hlower pool trace hr thread ht register hregister
          exact ih _ _ (hr.step ht hregister) (by omega)
  exact hend (moves start + 1) start [] .start (Nat.lt_succ_self _)

-- A cell of the memory to which the steps add what they count, as far as it goes.
theorem Reaches.cell_eq {start pool : Pool R M} {trace : List (Nat × E)} {cell : M → Nat}
    {modulus slot : Nat} (hr : Reaches program threads start pool trace)
    (hstart : cell start.memory < modulus)
    (hstep : ∀ thread register memory, cell memory < modulus →
      cell (program thread register memory).memory =
        (cell memory + ((program thread register memory).events.filterMap bin).count slot) % modulus) :
    cell pool.memory =
      (cell start.memory + (trace.filterMap fun item => bin item.2).count slot) % modulus := by
  induction hr with
  | start => exact (Nat.mod_eq_of_lt hstart).symm
  | @step pool trace thread register reached launched running ih =>
      have hword : cell pool.memory < modulus := ih ▸ Nat.mod_lt _ (by omega)
      have hevents : (((program thread register pool.memory).events.map (thread, ·)).filterMap
          fun item => bin item.2) = (program thread register pool.memory).events.filterMap bin := by
        rw [List.filterMap_map]
        rfl
      change cell (program thread register pool.memory).memory = _
      rw [hstep thread register pool.memory hword, ih, List.filterMap_append, List.count_append,
        hevents, Nat.mod_add_mod, Nat.add_assoc]

-- With a thread for each item the threads' shares are those of the items.
theorem sum_items {α : Type} {items : List α} {threads : Nat} (h : items.length ≤ threads)
    (share : α → Nat) : ∑ thread ∈ Finset.range threads, items[thread]?.elim 0 share =
      (items.map share).sum := by
  induction items generalizing threads with
  | nil => exact Finset.sum_eq_zero fun thread _ => rfl
  | cons item items ih =>
      obtain ⟨rest, rfl⟩ : ∃ rest, threads = rest + 1 := ⟨threads - 1, by
        rw [List.length_cons] at h
        omega⟩
      rw [Finset.sum_range_succ', List.map_cons, List.sum_cons, Nat.add_comm]
      exact congrArg _ (ih (Nat.le_of_succ_le_succ h))

end CycleEnum.Parallel
