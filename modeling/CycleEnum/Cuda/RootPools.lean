import CycleEnum.Cuda.RootSearch
import CycleEnum.Cuda.Progress

namespace CycleEnum.Cuda

open Parallel
open CycleEnum.Sequential (static_closings)

section Round

variable {graph : GraphView} {max_cycle_length threads thread root depth : Nat} {arrays : Stacks}

-- An upper bound of the rounds that a thread's open frames still take.
def rounds_left (graph : GraphView) (max_cycle_length thread depth : Nat) (arrays : Stacks) : Nat :=
  work (edges_left graph) graph.outgoing_edges.length max_cycle_length
    (arrays.frames (thread * max_cycle_length) depth)

theorem open_depth_le (h : OpenFrames graph max_cycle_length root
    (arrays.frames (thread * max_cycle_length) depth)) : depth ≤ max_cycle_length := by
  have hshort := h.short
  rwa [Stacks.frames, stack_at_length] at hshort

-- A round of the search of a thread whose frames are open.
structure Round (graph : GraphView) (max_cycle_length thread root depth : Nat) (arrays : Stacks)
    (result : Nat × Stacks × List Event) : Prop where
  open_frames : OpenFrames graph max_cycle_length root
    (result.2.1.frames (thread * max_cycle_length) result.1)
  pending : root_pending graph max_cycle_length root
      (arrays.frames (thread * max_cycle_length) (depth + 1)) =
    result.2.2.filterMap Event.bin ++ root_pending graph max_cycle_length root
      (result.2.1.frames (thread * max_cycle_length) result.1)
  apart : ∀ other, other ≠ thread → Stacks.Same max_cycle_length other arrays result.2.1
  events : ∀ event ∈ result.2.2,
    (∃ slot, event = .accessed slot ∧ InSlots max_cycle_length thread slot) ∨
      ∃ cycle_length, event = .counted cycle_length
  lower : rounds_left graph max_cycle_length thread result.1 result.2.1 <
    rounds_left graph max_cycle_length thread (depth + 1) arrays

theorem search_round_round (hg : Readable graph) (hfit : threads * max_cycle_length < 2 ^ 64)
    (ht : thread < threads)
    (h : OpenFrames graph max_cycle_length root
      (arrays.frames (thread * max_cycle_length) (depth + 1))) :
    Round graph max_cycle_length thread root depth arrays
      (arrays.search_round (packed graph) max_cycle_length (wrap (thread * max_cycle_length)) root
        (depth + 1)) := by
  have hd : depth < max_cycle_length := open_depth_le h
  have hrounds : Rounds max_cycle_length thread arrays _ _
      (arrays.search_round (packed graph) max_cycle_length (wrap (thread * max_cycle_length)) root
        (depth + 1)) := search_round_rounds hfit ht hd
  have hmoved := h.move hg
  refine ⟨?_, ?_, fun other ho slot hs => ?_, hrounds.events, ?_⟩
  · rw [hrounds.frames]
    exact hmoved.open_frames
  · rw [hrounds.frames, hrounds.counts]
    exact hmoved.pending
  · exact hrounds.apart slot fun hin => ho (in_slots_unique hin hs)
  · rw [rounds_left, rounds_left, hrounds.frames]
    exact work_apply_lt hmoved.uses

theorem own_base (hmax : 1 ≤ max_cycle_length) :
    OwnSlots max_cycle_length thread (.accessed (thread * max_cycle_length)) := by
  intro slot hslot
  obtain rfl := Event.accessed.inj hslot
  exact in_slots_add (k := 0) (by omega)

theorem Round.own_slots {result : Nat × Stacks × List Event}
    (h : Round graph max_cycle_length thread root depth arrays result) :
    ∀ event ∈ result.2.2, OwnSlots max_cycle_length thread event := by
  intro event he slot hslot
  subst hslot
  rcases h.events _ he with ⟨slot', hs, hin⟩ | ⟨cycle_length, hs⟩
  · obtain rfl := Event.accessed.inj hs
    exact hin
  · cases hs

theorem enter_same {graph : CudaGraphData} {slot vertex other : Nat} (h : other ≠ thread)
    (hs : InSlots max_cycle_length thread slot) :
    Stacks.Same max_cycle_length other arrays (arrays.enter graph slot vertex) := by
  intro slot' hs'
  have hne : slot' ≠ slot := fun he => h (in_slots_unique hs (he ▸ hs'))
  exact ⟨Function.update_of_ne hne _ _, Function.update_of_ne hne _ _⟩

theorem frames_root (graph : CudaGraphData) (base vertex : Nat) :
    (arrays.enter graph base vertex).frames base 1 = [(vertex, graph.outgoing_offsets.getD vertex 0)] :=
  Stacks.frames_enter arrays graph base 0 vertex

end Round

-- The lengths of the cycles at a root, in the order of the search.
def root_lengths (graph : GraphView) (max_cycle_length root : Nat) : List Nat :=
  (static_closings graph (some max_cycle_length) root).map List.length

-- The bound of the rounds that the search at a root takes.
def search_bound (graph : GraphView) (max_cycle_length : Nat) : Nat :=
  (graph.outgoing_edges.length + 1) * (graph.outgoing_edges.length + 2) ^ (max_cycle_length - 1)

-- A search starts below it.
theorem open_root_bound {graph : GraphView} {root : Nat} (max_cycle_length : Nat)
    (hg : Readable graph) (hr : root < graph.vertex_count) :
    work (edges_left graph) graph.outgoing_edges.length max_cycle_length
      [(root, graph.outgoing_offsets.getD root 0)] ≤ search_bound graph max_cycle_length := by
  refine work_single_le ?_
  have hle := hg.offset_le hr
  unfold edges_left
  dsimp only
  omega

-- Counting a slot in events.
def shown (slot : Nat) (event : Event) : Nat := if event.bin = some slot then 1 else 0

theorem sum_shown {α : Type} (slot : Nat) (event : α → Event) (items : List α) :
    (items.map fun item => shown slot (event item)).sum =
      (items.filterMap fun item => (event item).bin).count slot := by
  induction items with
  | nil => rfl
  | cons item items ih =>
      rw [List.map_cons, List.sum_cons, count_filterMap_cons, ih, shown]
      congr 1
      cases (event item).bin with
      | none => simp
      | some b =>
          by_cases hb : b = slot
          · simp [hb]
          · simp [hb]

section Queue

variable (graph : GraphView) (max_cycle_length : Nat)

-- What holds of a thread of the queue kernel between its steps.
def QueueGood (thread : Nat) (register : Register) (memory : QueueMemory) : Prop :=
  match register with
  | .asking => True
  | .searching root depth => root < graph.vertex_count ∧
      OpenFrames graph max_cycle_length root (memory.arrays.frames (thread * max_cycle_length) depth)

def QueueSame (thread : Nat) (memory memory' : QueueMemory) : Prop :=
  Stacks.Same max_cycle_length thread memory.arrays memory'.arrays

-- The counts at a slot that a thread has still to make, and those of the free roots.
def queue_held (slot thread : Nat) (register : Register) (memory : QueueMemory) : Nat :=
  match register with
  | .asking => 0
  | .searching root depth => (root_pending graph max_cycle_length root
      (memory.arrays.frames (thread * max_cycle_length) depth)).count slot

def queue_free (slot : Nat) (memory : QueueMemory) : Nat :=
  ((List.range' memory.work_counter (graph.vertex_count - memory.work_counter)).flatMap
    (root_lengths graph max_cycle_length)).count slot

-- The bound of the steps that a thread, or the free roots, may still take.
def queue_weight (thread : Nat) (register : Register) (memory : QueueMemory) : Nat :=
  match register with
  | .asking => 1
  | .searching _ depth => 2 + rounds_left graph max_cycle_length thread depth memory.arrays

def queue_reserve (memory : QueueMemory) : Nat :=
  (graph.vertex_count - memory.work_counter) * (search_bound graph max_cycle_length + 2)

def queue_work (threads : Nat) (pool : Pool Register QueueMemory) : Nat :=
  pool.total threads (queue_weight graph max_cycle_length) +
    queue_reserve graph max_cycle_length pool.memory

variable {graph max_cycle_length} {threads thread : Nat}

-- What a step of the queue kernel does, in its four cases.
inductive QueueStep (graph : GraphView) (max_cycle_length thread : Nat) (memory : QueueMemory) :
    Register → Effect Register QueueMemory Event → Prop
  | empty (beyond : graph.vertex_count ≤ memory.work_counter) :
      QueueStep graph max_cycle_length thread memory .asking
        ⟨none, ⟨wrap (memory.work_counter + 1), memory.arrays⟩, []⟩
  | claim (within : memory.work_counter < graph.vertex_count) :
      QueueStep graph max_cycle_length thread memory .asking
        ⟨some (.searching memory.work_counter 1), ⟨wrap (memory.work_counter + 1),
          memory.arrays.enter (packed graph) (thread * max_cycle_length) memory.work_counter⟩,
          [.claimed memory.work_counter, .accessed (thread * max_cycle_length)]⟩
  | done (root : Nat) :
      QueueStep graph max_cycle_length thread memory (.searching root 0) ⟨some .asking, memory, []⟩
  | round {root depth : Nat} {result : Nat × Stacks × List Event}
      (one : Round graph max_cycle_length thread root depth memory.arrays result) :
      QueueStep graph max_cycle_length thread memory (.searching root (depth + 1))
        ⟨some (.searching root result.1), ⟨memory.work_counter, result.2.1⟩, result.2.2⟩

theorem queue_step (hg : Readable graph) (hfit : threads * max_cycle_length < 2 ^ 64)
    (ht : thread < threads) {register : Register} {memory : QueueMemory}
    (hgood : QueueGood graph max_cycle_length thread register memory) :
    QueueStep graph max_cycle_length thread memory register
      (count_roots_queue_work (packed graph) max_cycle_length thread register memory) := by
  have hbase := wrap_base hfit ht
  cases register with
  | asking =>
      simp only [count_roots_queue_work, hbase]
      by_cases hover : memory.work_counter ≥ graph.vertex_count
      · rw [if_pos (show memory.work_counter ≥ (packed graph).vertex_count from hover)]
        exact .empty hover
      · rw [if_neg (show ¬memory.work_counter ≥ (packed graph).vertex_count from hover)]
        have hcount := hg.well_formed.counted
        rw [Stacks.enter_root_eq (by omega)]
        exact .claim (Nat.lt_of_not_le hover)
  | searching root depth =>
      cases depth with
      | zero => exact .done root
      | succ depth => exact .round (search_round_round hg hfit ht hgood.2)

theorem queue_owned (hg : Readable graph) (hfit : threads * max_cycle_length < 2 ^ 64)
    (hmax : 1 ≤ max_cycle_length) :
    Owned (count_roots_queue_work (packed graph) max_cycle_length) threads
      (QueueSame max_cycle_length) (QueueGood graph max_cycle_length) where
  keeps thread ht register memory hgood next hnext := by
    have hstep := queue_step hg hfit ht hgood
    generalize count_roots_queue_work (packed graph) max_cycle_length thread register memory = effect
      at hstep hnext ⊢
    cases hstep with
    | empty beyond => cases hnext
    | claim within =>
        obtain rfl := Option.some.inj hnext
        refine ⟨within, ?_⟩
        rw [frames_root]
        exact (open_root hg within hmax).1
    | done root =>
        obtain rfl := Option.some.inj hnext
        exact trivial
    | round one =>
        obtain rfl := Option.some.inj hnext
        exact ⟨hgood.1, one.open_frames⟩
  apart thread ht register memory hgood other ho hne := by
    have hstep := queue_step hg hfit ht hgood
    generalize count_roots_queue_work (packed graph) max_cycle_length thread register memory = effect
      at hstep ⊢
    cases hstep with
    | empty beyond => exact fun slot _ => ⟨rfl, rfl⟩
    | claim within => exact enter_same hne (in_slots_add (k := 0) (by omega))
    | done root => exact fun slot _ => ⟨rfl, rfl⟩
    | round one => exact one.apart other hne
  stable thread ht register memory memory' hsame hgood := by
    cases register with
    | asking => exact trivial
    | searching root depth =>
        refine ⟨hgood.1, ?_⟩
        rw [Stacks.Same.frames hsame (open_depth_le hgood.2)]
        exact hgood.2

-- The roots that have been claimed, in their order.
def claims (trace : List (Nat × Event)) : List Nat :=
  trace.filterMap fun item => item.2.root

-- How many threads are running.
def running (threads : Nat) (pool : Pool Register QueueMemory) : Nat :=
  pool.total threads fun _ _ _ => 1

-- The counter has gone one further for every claim and every thread that found no root
-- left. The claims are the first roots, and no thread ends before all are claimed.
structure Claims (graph : GraphView) (threads : Nat) (pool : Pool Register QueueMemory)
    (trace : List (Nat × Event)) : Prop where
  counter : pool.memory.work_counter + running threads pool = (claims trace).length + threads
  order : claims trace = List.range (claims trace).length
  most : (claims trace).length ≤ graph.vertex_count
  rest : (claims trace).length < graph.vertex_count → running threads pool = threads

def queue_start (arrays : Stacks) : Pool Register QueueMemory := ⟨fun _ => some .asking, ⟨0, arrays⟩⟩

variable {arrays : Stacks} {pool : Pool Register QueueMemory} {trace : List (Nat × Event)}

theorem queue_start_good (arrays : Stacks) :
    AllGood threads (QueueGood graph max_cycle_length) (queue_start arrays) := by
  intro thread _ register hr
  obtain rfl := Option.some.inj hr
  exact trivial

theorem running_start (arrays : Stacks) : running threads (queue_start arrays) = threads := by
  simp [running, Pool.total, queue_start]

theorem running_le (pool : Pool Register QueueMemory) : running threads pool ≤ threads := by
  have hone : ∀ thread ∈ Finset.range threads, (pool.registers thread).elim 0 (fun _ => 1) ≤ 1 := by
    intro thread _
    cases pool.registers thread with
    | none => exact Nat.zero_le _
    | some register => exact Nat.le_refl _
  calc running threads pool ≤ ∑ _thread ∈ Finset.range threads, 1 := Finset.sum_le_sum hone
    _ = threads := by simp

-- A step ends the moving thread or leaves all threads running.
theorem running_after (effect : Effect Register QueueMemory Event) {register : Register}
    (ht : thread < threads) (hr : pool.registers thread = some register) :
    ∃ rest, running threads pool = 1 + rest ∧
      running threads (pool.after thread effect) = (effect.registers.elim 0 fun _ => 1) + rest :=
  Pool.total_after effect ht hr fun _ _ _ _ _ => rfl

theorem claims_append (trace : List (Nat × Event)) (thread : Nat) (events : List Event) :
    claims (trace ++ events.map (thread, ·)) = claims trace ++ events.filterMap Event.root := by
  rw [claims, List.filterMap_append, List.filterMap_map]
  rfl

theorem Round.no_claims {root depth : Nat} {arrays : Stacks} {result : Nat × Stacks × List Event}
    (h : Round graph max_cycle_length thread root depth arrays result) :
    result.2.2.filterMap Event.root = [] := by
  refine List.filterMap_eq_nil_iff.mpr fun event he => ?_
  rcases h.events event he with ⟨slot, rfl, -⟩ | ⟨cycle_length, rfl⟩
  · rfl
  · rfl

-- The counter does not wrap while a thread is running.
theorem Claims.wrap_counter (hfew : graph.vertex_count + threads < 2 ^ 64)
    (h : Claims graph threads pool trace) (hrun : 0 < running threads pool) :
    wrap (pool.memory.work_counter + 1) = pool.memory.work_counter + 1 := by
  have := h.counter
  have := h.most
  exact wrap_eq (by omega)

theorem Claims.step (hfew : graph.vertex_count + threads < 2 ^ 64)
    (h : Claims graph threads pool trace) (ht : thread < threads) {register : Register}
    (hr : pool.registers thread = some register) {effect : Effect Register QueueMemory Event}
    (hstep : QueueStep graph max_cycle_length thread pool.memory register effect) :
    Claims graph threads (pool.after thread effect) (trace ++ effect.events.map (thread, ·)) := by
  obtain ⟨rest, hrun, hrun'⟩ := running_after effect ht hr
  have hle : running threads pool ≤ threads := running_le pool
  have hcount := h.wrap_counter hfew (by omega)
  obtain ⟨hcounter, horder, hmost, hrest⟩ := h
  have hmemory : (pool.after thread effect).memory = effect.memory := rfl
  have hclaims := claims_append trace thread effect.events
  cases hstep with
  | empty beyond =>
      have hall : (claims trace).length = graph.vertex_count := by
        by_contra hne
        have := hrest (by omega)
        omega
      have hsame := hclaims.trans (List.append_nil _)
      refine ⟨?_, by rwa [hsame], by rwa [hsame], fun hlt => ?_⟩
      · rw [hmemory, hrun', hsame]
        simp only [hcount, Option.elim_none]
        omega
      · rw [hsame] at hlt
        omega
  | claim within =>
      have hrunning : running threads pool = threads := by
        by_contra hne
        have hall : (claims trace).length = graph.vertex_count := by
          by_contra hless
          exact hne (hrest (by omega))
        omega
      have hroot : pool.memory.work_counter = (claims trace).length := by omega
      have hmore : claims _ = claims trace ++ [pool.memory.work_counter] := hclaims
      refine ⟨?_, ?_, ?_, fun _ => ?_⟩
      · rw [hmemory, hrun', hmore, List.length_append, List.length_singleton]
        simp only [hcount, Option.elim_some]
        omega
      · rw [hmore, List.length_append, List.length_singleton, List.range_succ, ← horder, hroot]
      · rw [hmore, List.length_append, List.length_singleton]
        omega
      · rw [hrun', Option.elim_some]
        omega
  | done root =>
      have hsame := hclaims.trans (List.append_nil _)
      refine ⟨?_, by rwa [hsame], by rwa [hsame], fun hlt => ?_⟩
      · rw [hmemory, hrun', hsame, Option.elim_some, ← hrun]
        exact hcounter
      · rw [hrun', Option.elim_some, ← hrun]
        exact hrest (by rwa [hsame] at hlt)
  | round one =>
      rw [one.no_claims, List.append_nil] at hclaims
      refine ⟨?_, by rwa [hclaims], by rwa [hclaims], fun hlt => ?_⟩
      · rw [hmemory, hrun', hclaims, Option.elim_some, ← hrun]
        exact hcounter
      · rw [hrun', Option.elim_some, ← hrun]
        exact hrest (by rwa [hclaims] at hlt)

theorem queue_held_same (slot : Nat) : ∀ thread < threads, ∀ register memory memory',
    QueueSame max_cycle_length thread memory memory' →
    QueueGood graph max_cycle_length thread register memory →
    queue_held graph max_cycle_length slot thread register memory' =
      queue_held graph max_cycle_length slot thread register memory := by
  intro thread ht register memory memory' hsame hgood
  cases register with
  | asking => rfl
  | searching root depth =>
      rw [queue_held, queue_held, Stacks.Same.frames hsame (open_depth_le hgood.2)]

theorem queue_weight_same : ∀ thread < threads, ∀ register memory memory',
    QueueSame max_cycle_length thread memory memory' →
    QueueGood graph max_cycle_length thread register memory →
    queue_weight graph max_cycle_length thread register memory' =
      queue_weight graph max_cycle_length thread register memory := by
  intro thread ht register memory memory' hsame hgood
  cases register with
  | asking => rfl
  | searching root depth =>
      rw [queue_weight, queue_weight, rounds_left, rounds_left,
        Stacks.Same.frames hsame (open_depth_le hgood.2)]

variable (hg : Readable graph) (hfit : threads * max_cycle_length < 2 ^ 64)
  (hmax : 1 ≤ max_cycle_length) (hfew : graph.vertex_count + threads < 2 ^ 64)
  (hr : Reaches (count_roots_queue_work (packed graph) max_cycle_length) threads
    (queue_start arrays) pool trace)

include hg hfit hmax hr

theorem queue_good : AllGood threads (QueueGood graph max_cycle_length) pool :=
  (queue_owned hg hfit hmax).reaches hr (queue_start_good arrays)

include hfew

theorem queue_claims : Claims graph threads pool trace := by
  induction hr with
  | start =>
      refine ⟨?_, rfl, Nat.zero_le _, fun _ => running_start arrays⟩
      rw [running_start]
      rfl
  | step reached launched running_ ih =>
      exact ih.step hfew launched running_ (queue_step hg hfit launched
        (queue_good hg hfit hmax reached _ launched _ running_))

theorem queue_wrap {thread : Nat} {register : Register} (ht : thread < threads)
    (hreg : pool.registers thread = some register) :
    wrap (pool.memory.work_counter + 1) = pool.memory.work_counter + 1 := by
  obtain ⟨rest, hrun, -⟩ := running_after ⟨none, pool.memory, []⟩ ht hreg
  exact (queue_claims hg hfit hmax hfew hr).wrap_counter hfew (by omega)

-- A step moves a count from what is free to the thread, or from the thread to its events.
theorem queue_step_conserved (slot : Nat) {thread : Nat} {register : Register} (ht : thread < threads)
    (hreg : pool.registers thread = some register) :
    ((count_roots_queue_work (packed graph) max_cycle_length thread register
          pool.memory).events.map (shown slot)).sum +
        ((count_roots_queue_work (packed graph) max_cycle_length thread register
          pool.memory).registers.elim 0 fun next => queue_held graph max_cycle_length slot thread next
            (count_roots_queue_work (packed graph) max_cycle_length thread register
              pool.memory).memory) +
        queue_free graph max_cycle_length slot (count_roots_queue_work (packed graph)
          max_cycle_length thread register pool.memory).memory =
      queue_held graph max_cycle_length slot thread register pool.memory +
        queue_free graph max_cycle_length slot pool.memory := by
  have hwrap := queue_wrap hg hfit hmax hfew hr ht hreg
  have hstep := queue_step hg hfit ht (queue_good hg hfit hmax hr thread ht register hreg)
  generalize count_roots_queue_work (packed graph) max_cycle_length thread register pool.memory =
    effect at hstep ⊢
  have hshown : (effect.events.map (shown slot)).sum = (effect.events.filterMap Event.bin).count slot :=
    sum_shown slot id effect.events
  rw [hshown]
  cases hstep with
  | empty beyond =>
      simp only [hwrap, queue_free, queue_held, Option.elim_none]
      rw [Nat.sub_eq_zero_of_le beyond, Nat.sub_eq_zero_of_le (by omega)]
      rfl
  | claim within =>
      have hrange : List.range' pool.memory.work_counter
          (graph.vertex_count - pool.memory.work_counter) = pool.memory.work_counter ::
          List.range' (pool.memory.work_counter + 1)
            (graph.vertex_count - (pool.memory.work_counter + 1)) := by
        rw [← List.range'_succ]
        congr 1
        omega
      simp only [hwrap, queue_free, queue_held, Option.elim_some]
      rw [frames_root, hrange, List.flatMap_cons, List.count_append]
      have hpending := (open_root hg within hmax).2
      change 0 + (root_pending graph max_cycle_length pool.memory.work_counter
        [(pool.memory.work_counter, graph.outgoing_offsets.getD pool.memory.work_counter 0)]).count
          slot + _ = _
      rw [hpending, root_lengths]
      omega
  | done root => rfl
  | round one =>
      simp only [queue_free, queue_held, Option.elim_some]
      rw [one.pending, List.count_append]

-- Every cycle is counted, or still to be found by a thread, or at a free root.
theorem queue_conserved (slot : Nat) :
    total_count Event.bin slot trace + pool.total threads (queue_held graph max_cycle_length slot) +
        queue_free graph max_cycle_length slot pool.memory =
      ((List.range graph.vertex_count).flatMap (root_lengths graph max_cycle_length)).count slot := by
  have hsum : (trace.map fun item => shown slot item.2).sum +
      pool.total threads (queue_held graph max_cycle_length slot) +
        queue_free graph max_cycle_length slot pool.memory =
      (queue_start arrays).total threads (queue_held graph max_cycle_length slot) +
        queue_free graph max_cycle_length slot (queue_start arrays).memory :=
    (queue_owned hg hfit hmax).conserved (queue_start_good arrays)
      (queue_held_same slot)
      (fun pool trace reached thread ht register hreg =>
        queue_step_conserved hg hfit hmax hfew reached slot ht hreg) hr
  have hheld : (queue_start arrays).total threads (queue_held graph max_cycle_length slot) = 0 :=
    Finset.sum_eq_zero fun thread _ => rfl
  have hfree : queue_free graph max_cycle_length slot (queue_start arrays).memory =
      ((List.range graph.vertex_count).flatMap (root_lengths graph max_cycle_length)).count slot := by
    rw [List.range_eq_range']
    rfl
  rw [sum_shown, hheld, hfree, Nat.zero_add] at hsum
  exact hsum

-- Every step leaves less to do.
theorem queue_lower {thread : Nat} {register : Register} (ht : thread < threads)
    (hreg : pool.registers thread = some register) :
    queue_work graph max_cycle_length threads (pool.after thread
        (count_roots_queue_work (packed graph) max_cycle_length thread register pool.memory)) <
      queue_work graph max_cycle_length threads pool := by
  have hgood := queue_good hg hfit hmax hr
  have hwrap := queue_wrap hg hfit hmax hfew hr ht hreg
  have hstep := queue_step hg hfit ht (hgood thread ht register hreg)
  obtain ⟨rest, hbefore, hafter⟩ := (queue_owned hg hfit hmax).total_after hgood
    (@queue_weight_same graph max_cycle_length threads) ht hreg
  unfold queue_work
  rw [hbefore, hafter]
  clear hbefore hafter
  change _ + queue_reserve graph max_cycle_length (count_roots_queue_work (packed graph)
    max_cycle_length thread register pool.memory).memory < _
  generalize count_roots_queue_work (packed graph) max_cycle_length thread register pool.memory =
    effect at hstep ⊢
  cases hstep with
  | empty beyond =>
      have hnone : graph.vertex_count - (pool.memory.work_counter + 1) = 0 := by omega
      simp only [hwrap, queue_reserve, queue_weight, Option.elim_none, hnone]
      omega
  | claim within =>
      have hone : graph.vertex_count - pool.memory.work_counter =
          graph.vertex_count - (pool.memory.work_counter + 1) + 1 := by omega
      have hbound := open_root_bound max_cycle_length hg within
      simp only [hwrap, queue_reserve, queue_weight, Option.elim_some, rounds_left]
      rw [frames_root, hone, Nat.add_mul, Nat.one_mul]
      change 2 + work (edges_left graph) graph.outgoing_edges.length max_cycle_length
        [(pool.memory.work_counter, graph.outgoing_offsets.getD pool.memory.work_counter 0)] + rest +
          _ < _
      omega
  | done root =>
      simp only [queue_weight, Option.elim_some]
      omega
  | round one =>
      have hlower := one.lower
      simp only [queue_weight, queue_reserve, Option.elim_some]
      omega

-- No thread touches another's slots.
omit hfew in
theorem queue_accesses : ∀ item ∈ trace, item.1 < threads ∧
    OwnSlots max_cycle_length item.1 item.2 := by
  apply hr.trace_of
  intro pool trace reached thread ht register hreg event he
  have hstep := queue_step hg hfit ht (queue_good hg hfit hmax reached thread ht register hreg)
  generalize count_roots_queue_work (packed graph) max_cycle_length thread register pool.memory =
    effect at hstep he
  cases hstep with
  | empty beyond => simp at he
  | claim within =>
      rcases List.mem_pair.mp he with rfl | rfl
      · intro slot hslot
        cases hslot
      · exact own_base hmax
  | done root => simp at he
  | round one => exact one.own_slots event he

-- When no thread is running, every root has been claimed once and every cycle counted.
theorem queue_finished (hpos : 0 < threads) (hdone : ∀ thread < threads, pool.registers thread = none) :
    claims trace = List.range graph.vertex_count ∧ ∀ slot, total_count Event.bin slot trace =
      ((List.range graph.vertex_count).flatMap (root_lengths graph max_cycle_length)).count slot := by
  have hzero : ∀ held : Nat → Register → QueueMemory → Nat, pool.total threads held = 0 :=
    fun held => Finset.sum_eq_zero fun thread ht => by rw [hdone thread (Finset.mem_range.mp ht)]; rfl
  obtain ⟨hcounter, horder, hmost, hrest⟩ := queue_claims hg hfit hmax hfew hr
  have hrun : running threads pool = 0 := hzero _
  have hall : (claims trace).length = graph.vertex_count := by
    by_contra hne
    have := hrest (by omega)
    omega
  refine ⟨hall ▸ horder, fun slot => ?_⟩
  have hconserved := queue_conserved hg hfit hmax hfew hr slot
  have hfree : queue_free graph max_cycle_length slot pool.memory = 0 := by
    rw [queue_free, Nat.sub_eq_zero_of_le (by omega)]
    rfl
  rwa [hzero, hfree] at hconserved

end Queue

end CycleEnum.Cuda
