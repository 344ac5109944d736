import CycleEnum.Cuda.ItemKernel
import CycleEnum.Cuda.TemporalPending

namespace CycleEnum.Cuda

open Parallel
open CycleEnum.Sequential (event_graph starts temporal_closings temporal_events timed_event_eq)

-- Two states of the arrays agree on the slots of a thread.
def TemporalStacks.Same (max_cycle_length thread : Nat) (arrays arrays' : TemporalStacks) : Prop :=
  ∀ slot, InSlots max_cycle_length thread slot → arrays'.frame slot = arrays.frame slot

theorem TemporalStacks.Same.frames {max_cycle_length thread depth : Nat}
    {arrays arrays' : TemporalStacks} (h : TemporalStacks.Same max_cycle_length thread arrays arrays')
    (hd : depth < max_cycle_length) :
    arrays'.frames (thread * max_cycle_length + 1) depth =
      arrays.frames (thread * max_cycle_length + 1) depth :=
  stack_at_congr fun k hk => by
    have hin : InSlots max_cycle_length thread (thread * max_cycle_length + (1 + k)) :=
      in_slots_add (by omega)
    rw [Nat.add_assoc]
    exact h _ hin

theorem TemporalStacks.Same.root {max_cycle_length thread : Nat} {arrays arrays' : TemporalStacks}
    (h : TemporalStacks.Same max_cycle_length thread arrays arrays') (hmax : 1 ≤ max_cycle_length) :
    arrays'.paths (thread * max_cycle_length) = arrays.paths (thread * max_cycle_length) :=
  congrArg TemporalFrame.vertex (h _ (in_slots_add (k := 0) (by omega)))

section Temporal

variable (graph : GraphView) (start_events : List CudaStartEvent) (width : Int)
  (max_cycle_length : Nat)

-- What holds of a thread that searches from its start event.
structure Searching (thread root : Nat) (window_end : Int) (depth : Nat) (arrays : TemporalStacks) :
    Prop where
  mine : ∃ event, start_events[thread]? = some event
  depth_pos : 1 ≤ depth
  path_root : arrays.paths (thread * max_cycle_length) = root
  open_frames : OpenTemporal graph max_cycle_length root
    (arrays.frames (thread * max_cycle_length + 1) (depth - 1))

def TemporalGood (thread : Nat) (register : TemporalRegister) (arrays : TemporalStacks) : Prop :=
  match register with
  | .asking => True
  | .searching root window_end depth =>
      Searching graph start_events max_cycle_length thread root window_end depth arrays

-- The lengths of the cycles that a thread has still to count.
def start_pending (thread : Nat) (register : TemporalRegister) (arrays : TemporalStacks) : List Nat :=
  match register with
  | .asking => start_events[thread]?.elim [] fun event =>
      timed_lengths (event_closings graph width (some max_cycle_length) event)
  | .searching root window_end depth => temporal_pending graph max_cycle_length root window_end
      (arrays.frames (thread * max_cycle_length + 1) (depth - 1))

def start_left (thread : Nat) (register : TemporalRegister) (arrays : TemporalStacks) : Nat :=
  match register with
  | .asking => (frame_most graph + 1) * (frame_most graph + 2) ^ (max_cycle_length - 1 - 1) + 1
  | .searching _ _ depth => work (frame_left graph) (frame_most graph) (max_cycle_length - 1)
      (arrays.frames (thread * max_cycle_length + 1) (depth - 1))

end Temporal

section Step

variable {graph : GraphView} {start_events : List CudaStartEvent} {width : Int}
  {max_cycle_length threads thread : Nat}

theorem Searching.depth_lt {root depth : Nat} {window_end : Int} {arrays : TemporalStacks}
    (h : Searching graph start_events max_cycle_length thread root window_end depth arrays) :
    depth - 1 < max_cycle_length := by
  have hshort := h.open_frames.short
  rwa [TemporalStacks.frames, stack_at_length] at hshort

-- A step of a thread, seen from its item.
abbrev TemporalStep (graph : GraphView) (start_events : List CudaStartEvent) (width : Int)
    (max_cycle_length : Nat) : Nat → TemporalRegister → TemporalStacks →
    Effect TemporalRegister TemporalStacks Event → Prop :=
  ItemStep (TemporalStacks.Same max_cycle_length) (TemporalGood graph start_events max_cycle_length)
    Event.bin (OwnSlots max_cycle_length) (start_pending graph start_events width max_cycle_length)
    (start_left graph max_cycle_length)

theorem temporal_round (hg : Readable graph)
    (hfit : start_events.length * max_cycle_length < 2 ^ 64) {root depth : Nat} {window_end : Int}
    {arrays : TemporalStacks} (hd : depth > 1)
    (h : Searching graph start_events max_cycle_length thread root window_end depth arrays)
    {result : Nat × TemporalStacks × List Event}
    (hresult : arrays.search_round (packed graph) max_cycle_length
      (wrap (thread * max_cycle_length)) root window_end depth = result) :
    TemporalStep graph start_events width max_cycle_length thread
      (.searching root window_end depth) arrays
      ⟨some (.searching root window_end result.1), result.2.1, result.2.2⟩ := by
  obtain ⟨depth, rfl⟩ : ∃ d, depth = d + 2 := ⟨depth - 2, by omega⟩
  obtain ⟨⟨event, hevent⟩, -, hroot, hopen⟩ := h
  have ht : thread < start_events.length := (List.getElem?_eq_some_iff.mp hevent).1
  have hshort : depth + 1 < max_cycle_length := by
    have hshort := hopen.short
    rwa [TemporalStacks.frames, stack_at_length] at hshort
  have hrounds : TemporalRounds max_cycle_length thread arrays _ _ result :=
    hresult ▸ temporal_search_round_rounds hfit ht hshort hroot
  have hslot : thread * max_cycle_length + 1 + depth = thread * max_cycle_length + (depth + 1) := by
    omega
  have hframes : arrays.frames (thread * max_cycle_length + 1) (depth + 2 - 1) =
      arrays.frame (thread * max_cycle_length + (depth + 1)) ::
        arrays.frames (thread * max_cycle_length + 1) depth := by
    rw [← hslot]
    rfl
  rw [hframes] at hopen
  have hmoved := hopen.move window_end hg
  refine .goes ⟨⟨event, hevent⟩, hrounds.depth, hrounds.root.trans hroot, ?_⟩ ?_ ?_ ?_ ?_
  · rw [hrounds.frames]
    exact hmoved.open_frames
  · exact fun other ho slot hs => hrounds.apart slot fun hin => ho (in_slots_unique hin hs)
  · rw [start_pending, start_pending, hrounds.frames, hrounds.counts, hframes]
    exact hmoved.pending
  · rw [start_left, start_left, hrounds.frames, hframes]
    exact work_apply_lt hmoved.uses
  · intro event he slot hslot
    subst hslot
    rcases hrounds.events _ he with ⟨slot', hs, hin⟩ | ⟨cycle_length, hs⟩
    · obtain rfl := Event.accessed.inj hs
      exact hin
    · cases hs

-- A search starts with the first vertex above the root.
theorem start_frame (graph : GraphView) (hfit : start_events.length * max_cycle_length < 2 ^ 64)
    (hmax : 2 ≤ max_cycle_length) {event : CudaStartEvent}
    (hevent : start_events[thread]? = some event) (arrays : TemporalStacks) :
    (arrays.start (packed graph) (thread * max_cycle_length) event).frames
        (thread * max_cycle_length + 1) 1 =
        [.enter (packed graph) event.first_vertex event.start_timestamp] ∧
      (arrays.start (packed graph) (thread * max_cycle_length) event).paths
        (thread * max_cycle_length) = event.root ∧
      ∀ other, other ≠ thread → TemporalStacks.Same max_cycle_length other arrays
        (arrays.start (packed graph) (thread * max_cycle_length) event) := by
  have ht : thread < start_events.length := (List.getElem?_eq_some_iff.mp hevent).1
  have hfirst := wrap_slot hfit ht (show 1 < max_cycle_length by omega)
  rw [wrap_base hfit ht] at hfirst
  have hin : InSlots max_cycle_length thread (thread * max_cycle_length) :=
    in_slots_add (k := 0) (by omega)
  have hin' : InSlots max_cycle_length thread (thread * max_cycle_length + 1) :=
    in_slots_add (by omega)
  unfold TemporalStacks.start
  rw [hfirst]
  refine ⟨?_, ?_, fun other ho slot hs => ?_⟩
  · rw [TemporalStacks.frames, TemporalStacks.frame_enter]
    exact stack_at_update_top _ _ 0 _
  · have hne : thread * max_cycle_length ≠ thread * max_cycle_length + 1 := by omega
    refine (Function.update_of_ne hne _ _).trans ?_
    exact Function.update_self _ _ _
  · have hne : slot ≠ thread * max_cycle_length := fun he => ho (in_slots_unique hin (he ▸ hs))
    have hne' : slot ≠ thread * max_cycle_length + 1 := fun he =>
      ho (in_slots_unique hin' (he ▸ hs))
    rw [TemporalStacks.frame_enter, Function.update_of_ne hne']
    simp [TemporalStacks.frame, hne]

variable (hg : Readable graph) (h0 : 0 ≤ width)
  (hvalid : ∀ event ∈ start_events, event.Valid graph width)
  (hfit : start_events.length * max_cycle_length < 2 ^ 64) (hmax : 2 ≤ max_cycle_length)

include hg hvalid hfit hmax

theorem temporal_enter {event : CudaStartEvent} (mine : start_events[thread]? = some event)
    (arrays : TemporalStacks) :
    TemporalStep graph start_events width max_cycle_length thread .asking arrays
      ⟨some (.searching event.root (event.start_timestamp + width) 2),
        arrays.start (packed graph) (thread * max_cycle_length) event,
        [.accessed (thread * max_cycle_length), .accessed (thread * max_cycle_length + 1)]⟩ := by
  obtain ⟨hframes, hroot, hapart⟩ := start_frame graph hfit hmax mine arrays
  have hv := hvalid event (List.mem_of_getElem? mine)
  obtain ⟨hopen, hpending⟩ := open_temporal_start hg hv hmax
  refine .goes ⟨⟨event, mine⟩, by omega, hroot, hframes ▸ hopen⟩ hapart ?_ ?_ ?_
  · rw [start_pending, mine, Option.elim_some, start_pending]
    change _ = [] ++ temporal_pending graph max_cycle_length event.root
      (event.start_timestamp + width) (TemporalStacks.frames _ _ 1)
    rw [hframes]
    exact hpending.symm
  · rw [start_left, start_left]
    change work _ _ _ (TemporalStacks.frames _ _ 1) < _
    rw [hframes]
    exact Nat.lt_succ_of_le (work_single_le (frame_left_enter hg hv.first_lt _))
  · intro accessed he
    rcases List.mem_pair.mp he with rfl | rfl
    · exact own_base (by omega)
    · intro slot hslot
      obtain rfl := Event.accessed.inj hslot
      exact in_slots_add (by omega)

include h0

theorem temporal_step {register : TemporalRegister} {arrays : TemporalStacks}
    (hgood : TemporalGood graph start_events max_cycle_length thread register arrays) :
    TemporalStep graph start_events width max_cycle_length thread register arrays
      (count_temporal_start_events_work (packed graph) start_events width max_cycle_length thread
        register arrays) := by
  cases register with
  | asking =>
      unfold count_temporal_start_events_work
      dsimp only
      cases hevent : start_events[thread]? with
      | none => exact .ends (by rw [start_pending, hevent]; rfl)
      | some event =>
          have ht : thread < start_events.length := (List.getElem?_eq_some_iff.mp hevent).1
          have hv := hvalid event (List.mem_of_getElem? hevent)
          have hbase := wrap_base hfit ht
          have hfirst := wrap_slot hfit ht (show 1 < max_cycle_length by omega)
          rw [hbase] at hfirst ⊢
          dsimp only
          rw [checked_window_end_eq h0 hv.fits, hfirst]
          exact temporal_enter hg hvalid hfit hmax hevent arrays
  | searching root window_end depth =>
      have hdepth : 1 ≤ depth := Searching.depth_pos hgood
      unfold count_temporal_start_events_work
      dsimp only
      split_ifs with hd
      · exact temporal_round hg hfit hd hgood rfl
      · obtain rfl : depth = 1 := by omega
        exact .ends rfl

theorem temporal_items :
    Items (count_temporal_start_events_work (packed graph) start_events width max_cycle_length)
      threads (TemporalStacks.Same max_cycle_length)
      (TemporalGood graph start_events max_cycle_length) Event.bin (OwnSlots max_cycle_length)
      (start_pending graph start_events width max_cycle_length)
      (start_left graph max_cycle_length) := by
  refine items_of_steps (fun thread arrays slot _ => rfl) ?_ fun thread _ register arrays hgood =>
    temporal_step hg h0 hvalid hfit hmax hgood
  intro thread _ register arrays arrays' hsame hgood
  cases register with
  | asking => exact ⟨trivial, rfl, rfl⟩
  | searching root window_end depth =>
      have hframes := hsame.frames (Searching.depth_lt hgood)
      refine ⟨⟨hgood.mine, hgood.depth_pos, (hsame.root (by omega)).trans hgood.path_root, ?_⟩, ?_, ?_⟩
      · rw [hframes]
        exact hgood.open_frames
      · rw [start_pending, start_pending, hframes]
      · rw [start_left, start_left, hframes]

end Step

section Lengths

variable {graph : GraphView} {width : Int} {max_cycle_length : Nat}

theorem tally_timed_lengths (closings : List (List Nat × Nat)) (slot : Nat) :
    CycleHistogram.tally (closings.map fun closed => (closed.1.length, closed.2)) slot =
      (timed_lengths closings).count slot := by
  induction closings with
  | nil => rfl
  | cons closed closings ih =>
      have hcons : timed_lengths (closed :: closings) =
          List.replicate closed.2 closed.1.length ++ timed_lengths closings := rfl
      rw [List.map_cons, CycleHistogram.tally_cons, ih, hcons, List.count_append,
        List.count_replicate]
      simp only [beq_iff_eq]

-- The lengths at all start events are the increments of the sequential search.
theorem tally_temporal_events (hw : graph.WellFormed) (slot : Nat) :
    CycleHistogram.tally (temporal_events graph width (some max_cycle_length)) slot =
      (timed_lengths ((starts graph).flatMap
        (temporal_closings graph width (some max_cycle_length)))).count slot := by
  have hevents : temporal_events graph width (some max_cycle_length) =
      ((starts graph).flatMap (temporal_closings graph width (some max_cycle_length))).map
        fun closed => (closed.1.length, closed.2) := by
    rw [temporal_events, List.map_flatMap]
    refine List.flatMap_congr fun start hs => List.map_congr_left fun closed hc => ?_
    exact (timed_event_eq hw hs hc).1
  rw [hevents, tally_timed_lengths]

theorem temporal_events_le (hw : graph.WellFormed) (hmax : 2 ≤ max_cycle_length) :
    ∀ event ∈ temporal_events graph width (some max_cycle_length), event.1 ≤ max_cycle_length := by
  intro event he
  obtain ⟨start, hs, he⟩ := List.mem_flatMap.mp he
  obtain ⟨closed, hc, rfl⟩ := List.mem_map.mp he
  rw [(timed_event_eq hw hs hc).1]
  exact Enumeration.timed_closings_short _ _ _ hmax closed hc

-- What all threads have pending at the launch.
theorem start_pending_total {start_events : List CudaStartEvent} {threads : Nat}
    (hall : start_events.length ≤ threads) (arrays : TemporalStacks) (slot : Nat) :
    Pool.total threads (fun thread register arrays =>
        (start_pending graph start_events width max_cycle_length thread register arrays).count slot)
      (⟨fun _ => some .asking, arrays⟩ : Pool TemporalRegister TemporalStacks) =
      (timed_lengths (start_events.flatMap
        (event_closings graph width (some max_cycle_length)))).count slot := by
  have hterm : ∀ thread ∈ Finset.range threads, (start_pending graph start_events width
      max_cycle_length thread .asking arrays).count slot = start_events[thread]?.elim 0 fun event =>
        (timed_lengths (event_closings graph width (some max_cycle_length) event)).count slot := by
    intro thread _
    rw [start_pending]
    cases start_events[thread]? with
    | none => rfl
    | some event => rfl
  calc _ = ∑ thread ∈ Finset.range threads, (start_pending graph start_events width
        max_cycle_length thread .asking arrays).count slot := rfl
    _ = (start_events.map fun event =>
        (timed_lengths (event_closings graph width (some max_cycle_length) event)).count slot).sum := by
      rw [Finset.sum_congr rfl hterm, sum_items hall]
    _ = _ := by
      rw [timed_lengths_flatMap, List.count_flatMap]
      rfl

end Lengths

end CycleEnum.Cuda
