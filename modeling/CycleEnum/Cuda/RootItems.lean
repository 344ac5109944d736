import CycleEnum.Cuda.ItemKernel

namespace CycleEnum.Cuda

open Parallel
open CycleEnum.Sequential (static_events static_closes static_closing_event)

section Roots

variable (graph : GraphView) (max_cycle_length : Nat)

-- What holds of a thread of the kernel with one root for each.
def RootGood (thread : Nat) (register : Register) (arrays : Stacks) : Prop :=
  match register with
  | .asking => True
  | .searching root depth => root = thread ∧ thread < graph.vertex_count ∧
      OpenFrames graph max_cycle_length thread (arrays.frames (thread * max_cycle_length) depth)

-- The lengths of the cycles that a thread has still to count.
def roots_pending (thread : Nat) (register : Register) (arrays : Stacks) : List Nat :=
  match register with
  | .asking => if thread < graph.vertex_count then root_lengths graph max_cycle_length thread else []
  | .searching root depth => root_pending graph max_cycle_length root
      (arrays.frames (thread * max_cycle_length) depth)

def roots_left (thread : Nat) (register : Register) (arrays : Stacks) : Nat :=
  match register with
  | .asking => search_bound graph max_cycle_length + 1
  | .searching _ depth => rounds_left graph max_cycle_length thread depth arrays

variable {graph max_cycle_length} {threads thread : Nat}

-- What a step of a thread does.
inductive RootStep (graph : GraphView) (max_cycle_length thread : Nat) (arrays : Stacks) :
    Register → Effect Register Stacks Event → Prop
  | idle (beyond : graph.vertex_count ≤ thread) :
      RootStep graph max_cycle_length thread arrays .asking ⟨none, arrays, []⟩
  | enter (within : thread < graph.vertex_count) :
      RootStep graph max_cycle_length thread arrays .asking
        ⟨some (.searching thread 1), arrays.enter (packed graph) (thread * max_cycle_length) thread,
          [.accessed (thread * max_cycle_length)]⟩
  | done : RootStep graph max_cycle_length thread arrays (.searching thread 0) ⟨none, arrays, []⟩
  | round {depth : Nat} {result : Nat × Stacks × List Event} (within : thread < graph.vertex_count)
      (one : Round graph max_cycle_length thread thread depth arrays result) :
      RootStep graph max_cycle_length thread arrays (.searching thread (depth + 1))
        ⟨some (.searching thread result.1), result.2.1, result.2.2⟩

theorem root_step (hg : Readable graph) (hfit : graph.vertex_count * max_cycle_length < 2 ^ 64)
    {register : Register} {arrays : Stacks}
    (hgood : RootGood graph max_cycle_length thread register arrays) :
    RootStep graph max_cycle_length thread arrays register
      (count_roots_work (packed graph) max_cycle_length thread register arrays) := by
  cases register with
  | asking =>
      unfold count_roots_work
      by_cases hin : thread < graph.vertex_count
      · dsimp only
        have hcount := hg.well_formed.counted
        rw [if_pos (show thread < (packed graph).vertex_count from hin), wrap_base hfit hin,
          Stacks.enter_root_eq (by omega)]
        exact .enter hin
      · dsimp only
        rw [if_neg (show ¬thread < (packed graph).vertex_count from hin)]
        exact .idle (Nat.le_of_not_lt hin)
  | searching root depth =>
      obtain ⟨rfl, hin, hopen⟩ := hgood
      cases depth with
      | zero => exact .done
      | succ depth => exact .round hin (search_round_round hg hfit hin hopen)

theorem roots_searches (hg : Readable graph)
    (hfit : graph.vertex_count * max_cycle_length < 2 ^ 64) (hmax : 1 ≤ max_cycle_length) :
    Searches (count_roots_work (packed graph) max_cycle_length) threads max_cycle_length
      (Stacks.Same max_cycle_length) (RootGood graph max_cycle_length)
      (roots_pending graph max_cycle_length) (roots_left graph max_cycle_length) where
  owned := {
    keeps := fun thread ht register arrays hgood next hnext => by
      have hstep := root_step hg hfit hgood
      generalize count_roots_work (packed graph) max_cycle_length thread register arrays = effect
        at hstep hnext ⊢
      cases hstep with
      | idle beyond => cases hnext
      | enter within =>
          obtain rfl := Option.some.inj hnext
          refine ⟨rfl, within, ?_⟩
          rw [frames_root]
          exact (open_root hg within hmax).1
      | done => cases hnext
      | round within one =>
          obtain rfl := Option.some.inj hnext
          exact ⟨rfl, within, one.open_frames⟩
    apart := fun thread ht register arrays hgood other ho hne => by
      have hstep := root_step hg hfit hgood
      generalize count_roots_work (packed graph) max_cycle_length thread register arrays = effect
        at hstep ⊢
      cases hstep with
      | idle beyond => exact fun slot _ => ⟨rfl, rfl⟩
      | enter within => exact enter_same hne (in_slots_add (k := 0) (by omega))
      | done => exact fun slot _ => ⟨rfl, rfl⟩
      | round within one => exact one.apart other hne
    stable := fun thread ht register arrays arrays' hsame hgood => by
      cases register with
      | asking => exact trivial
      | searching root depth =>
          obtain ⟨hroot, hin, hopen⟩ := hgood
          refine ⟨hroot, hin, ?_⟩
          rw [Stacks.Same.frames hsame (open_depth_le hopen)]
          exact hopen }
  pending_same thread ht register arrays arrays' hsame hgood := by
    cases register with
    | asking => rfl
    | searching root depth =>
        rw [roots_pending, roots_pending, Stacks.Same.frames hsame (open_depth_le hgood.2.2)]
  left_same thread ht register arrays arrays' hsame hgood := by
    cases register with
    | asking => rfl
    | searching root depth =>
        rw [roots_left, roots_left, rounds_left, rounds_left,
          Stacks.Same.frames hsame (open_depth_le hgood.2.2)]
  counts thread ht register arrays hgood := by
    have hstep := root_step hg hfit hgood
    generalize count_roots_work (packed graph) max_cycle_length thread register arrays = effect
      at hstep ⊢
    cases hstep with
    | idle beyond =>
        rw [roots_pending, if_neg (by omega)]
        rfl
    | enter within =>
        have hroot := (open_root hg within hmax).2
        rw [roots_pending, if_pos within, Option.elim_some, roots_pending, frames_root]
        exact hroot.symm
    | done => rfl
    | round within one => exact one.pending
  lower thread ht register arrays hgood next hnext := by
    have hstep := root_step hg hfit hgood
    generalize count_roots_work (packed graph) max_cycle_length thread register arrays = effect
      at hstep hnext ⊢
    cases hstep with
    | idle beyond => cases hnext
    | enter within =>
        obtain rfl := Option.some.inj hnext
        rw [roots_left, roots_left, rounds_left, frames_root]
        exact Nat.lt_succ_of_le (open_root_bound max_cycle_length hg within)
    | done => cases hnext
    | round within one =>
        obtain rfl := Option.some.inj hnext
        exact one.lower
  own_slots thread ht register arrays hgood event he := by
    have hstep := root_step hg hfit hgood
    generalize count_roots_work (packed graph) max_cycle_length thread register arrays = effect
      at hstep he
    cases hstep with
    | idle beyond => simp at he
    | enter within =>
        obtain rfl := List.mem_singleton.mp he
        exact own_base hmax
    | done => simp at he
    | round within one => exact one.own_slots event he

end Roots

section Lengths

variable {graph : GraphView} {max_cycle_length : Nat}

-- The lengths at all roots are the increments of the sequential search.
theorem static_events_lengths (hw : graph.WellFormed) :
    static_events graph (some max_cycle_length) = ((List.range graph.vertex_count).flatMap
      (root_lengths graph max_cycle_length)).map fun length => (length, 1) := by
  rw [static_events, List.map_flatMap]
  refine List.flatMap_congr fun root _ => ?_
  rw [root_lengths, List.map_map]
  exact List.map_congr_left fun closed hc => (static_closing_event hw hc).1

theorem tally_static_events (hw : graph.WellFormed) (slot : Nat) :
    CycleHistogram.tally (static_events graph (some max_cycle_length)) slot =
      ((List.range graph.vertex_count).flatMap (root_lengths graph max_cycle_length)).count slot := by
  rw [static_events_lengths hw, CycleHistogram.tally_map_one]

theorem static_events_le (hw : graph.WellFormed) (hmax : 1 ≤ max_cycle_length) :
    ∀ event ∈ static_events graph (some max_cycle_length), event.1 ≤ max_cycle_length := by
  intro event he
  obtain ⟨root, -, he⟩ := List.mem_flatMap.mp he
  obtain ⟨closed, hc, rfl⟩ := List.mem_map.mp he
  rw [(static_closing_event hw hc).1]
  rcases (static_closes hc).capped with rfl | hle
  · exact hmax
  · exact hle max_cycle_length rfl

-- What all threads have pending at the launch.
theorem roots_pending_total {threads : Nat} (hall : graph.vertex_count ≤ threads) (arrays : Stacks)
    (slot : Nat) :
    Pool.total threads (fun thread register arrays =>
        (roots_pending graph max_cycle_length thread register arrays).count slot)
      (⟨fun _ => some .asking, arrays⟩ : Pool Register Stacks) =
      ((List.range graph.vertex_count).flatMap (root_lengths graph max_cycle_length)).count slot := by
  have hterm : ∀ thread ∈ Finset.range threads, (roots_pending graph max_cycle_length thread .asking
      arrays).count slot = (List.range graph.vertex_count)[thread]?.elim 0 fun root =>
        (root_lengths graph max_cycle_length root).count slot := by
    intro thread _
    rw [roots_pending]
    split_ifs with hin
    · rw [List.getElem?_range hin]
      rfl
    · rw [List.getElem?_eq_none (by simpa using hin)]
      rfl
  calc _ = ∑ thread ∈ Finset.range threads, (roots_pending graph max_cycle_length thread .asking
        arrays).count slot := rfl
    _ = ((List.range graph.vertex_count).map fun root =>
        (root_lengths graph max_cycle_length root).count slot).sum := by
      rw [Finset.sum_congr rfl hterm, sum_items (by simpa using hall)]
    _ = _ := by
      rw [List.count_flatMap]
      rfl

end Lengths

end CycleEnum.Cuda
