import CycleEnum.Cuda.TemporalKernel
import CycleEnum.Cuda.RootSearch

namespace CycleEnum.Cuda

open Parallel

-- What a thread keeps for a vertex of its path.
structure TemporalFrame where
  vertex : Nat
  edge_cursor : Nat
  active_edge : Nat
  timestamp_cursor : Nat
  timestamp_end : Nat
  arrival : Int
deriving DecidableEq, Repr

def TemporalFrame.enter (graph : CudaGraphData) (vertex : Nat) (timestamp : Int) : TemporalFrame :=
  ⟨vertex, graph.outgoing_offsets.getD vertex 0, 0, 0, 0, timestamp⟩

namespace TemporalStacks

def frame (arrays : TemporalStacks) (slot : Nat) : TemporalFrame :=
  ⟨arrays.paths slot, arrays.edge_cursors slot, arrays.active_edges slot,
    arrays.timestamp_cursors slot, arrays.timestamp_ends slot, arrays.arrival_timestamps slot⟩

-- The open frames of a thread above its root.
def frames (arrays : TemporalStacks) (base depth : Nat) : List TemporalFrame :=
  stack_at arrays.frame base depth

variable (arrays : TemporalStacks) (slot : Nat)

theorem frame_enter (graph : CudaGraphData) (vertex : Nat) (timestamp : Int) :
    (arrays.enter graph slot vertex timestamp).frame =
      Function.update arrays.frame slot (.enter graph vertex timestamp) := by
  funext other
  by_cases ho : other = slot
  · simp [frame, enter, TemporalFrame.enter, ho]
  · simp [frame, enter, ho]

theorem frame_timestamp (cursor : Nat) :
    ({ arrays with timestamp_cursors := Function.update arrays.timestamp_cursors slot cursor } :
        TemporalStacks).frame =
      Function.update arrays.frame slot { arrays.frame slot with timestamp_cursor := cursor } := by
  funext other
  by_cases ho : other = slot
  · simp [frame, ho]
  · simp [frame, ho]

theorem frame_edge (cursor : Nat) :
    ({ arrays with edge_cursors := Function.update arrays.edge_cursors slot cursor } :
        TemporalStacks).frame =
      Function.update arrays.frame slot { arrays.frame slot with edge_cursor := cursor } := by
  funext other
  by_cases ho : other = slot
  · simp [frame, ho]
  · simp [frame, ho]

theorem frame_active (cursor edge first last : Nat) :
    ({ arrays with
        edge_cursors := Function.update arrays.edge_cursors slot cursor
        active_edges := Function.update arrays.active_edges slot edge
        timestamp_cursors := Function.update arrays.timestamp_cursors slot first
        timestamp_ends := Function.update arrays.timestamp_ends slot last } : TemporalStacks).frame =
      Function.update arrays.frame slot { arrays.frame slot with
        edge_cursor := cursor, active_edge := edge, timestamp_cursor := first
        timestamp_end := last } := by
  funext other
  by_cases ho : other = slot
  · simp [frame, ho]
  · simp [frame, ho]

end TemporalStacks

-- The path of the open frames down to the root.
def frame_path (root : Nat) (frames : List TemporalFrame) : List Nat :=
  frames.map (·.vertex) ++ [root]

-- The rounds of the search on the open frames above the root alone.
def timestamp_move (graph : CudaGraphData) (max_cycle_length root : Nat) (top : TemporalFrame)
    (below : List TemporalFrame) : Move TemporalFrame Nat :=
  let depth := below.length + 2
  let next := graph.outgoing_neighbors.getD top.active_edge 0
  let advanced := { top with timestamp_cursor := top.timestamp_cursor + 1 }
  if next = root then .stay advanced [depth]
  else if depth ≥ max_cycle_length then .stay advanced []
  else if next ∈ frame_path root (top :: below) then .stay advanced []
  else .push advanced (.enter graph next (timestamp_at graph.timestamps top.timestamp_cursor))

def edge_move (graph : CudaGraphData) (window_end : Int) (top : TemporalFrame) :
    Move TemporalFrame Nat :=
  if top.edge_cursor ≥ graph.outgoing_offsets.getD (next_id top.vertex) 0 then .pop
  else
    let range := timestamps_after graph.timestamps
      (graph.outgoing_timestamp_begin.getD top.edge_cursor 0)
      (graph.outgoing_timestamp_end.getD top.edge_cursor 0) top.arrival window_end
    if range.empty then .stay { top with edge_cursor := top.edge_cursor + 1 } []
    else .stay { top with
      edge_cursor := top.edge_cursor + 1, active_edge := top.edge_cursor
      timestamp_cursor := range.begin, timestamp_end := range.end_ } []

def temporal_move (graph : CudaGraphData) (max_cycle_length root : Nat) (window_end : Int)
    (top : TemporalFrame) (below : List TemporalFrame) : Move TemporalFrame Nat :=
  if top.timestamp_cursor < top.timestamp_end then
    timestamp_move graph max_cycle_length root top below
  else edge_move graph window_end top

-- What a round does to the arrays when it moves on the open frames as given.
structure TemporalRounds (max_cycle_length thread : Nat) (arrays : TemporalStacks)
    (below : List TemporalFrame) (move : Move TemporalFrame Nat)
    (result : Nat × TemporalStacks × List Event) : Prop where
  depth : 1 ≤ result.1
  frames : result.2.1.frames (thread * max_cycle_length + 1) (result.1 - 1) = move.apply below
  apart : ∀ slot, ¬InSlots max_cycle_length thread slot → result.2.1.frame slot = arrays.frame slot
  root : result.2.1.paths (thread * max_cycle_length) = arrays.paths (thread * max_cycle_length)
  counts : result.2.2.filterMap Event.bin = move.events
  events : ∀ event ∈ result.2.2,
    (∃ slot, event = .accessed slot ∧ InSlots max_cycle_length thread slot) ∨
      ∃ cycle_length, event = .counted cycle_length

section Round

variable {graph : CudaGraphData} {max_cycle_length threads thread root depth : Nat}
  {window_end : Int} {arrays : TemporalStacks}

-- A round that writes one frame only, the top one.
theorem temporal_stay {next : TemporalStacks} {top : TemporalFrame} {lengths : List Nat}
    {events : List Event} (hd : depth + 1 < max_cycle_length)
    (h : next.frame = Function.update arrays.frame (thread * max_cycle_length + (depth + 1)) top)
    (hcounts : events.filterMap Event.bin = lengths)
    (hevents : ∀ event ∈ events,
      (∃ slot, event = .accessed slot ∧ InSlots max_cycle_length thread slot) ∨
        ∃ cycle_length, event = .counted cycle_length) :
    TemporalRounds max_cycle_length thread arrays
      (arrays.frames (thread * max_cycle_length + 1) depth) (.stay top lengths)
      (depth + 2, next, events) where
  depth := by dsimp only; omega
  frames := by
    have hslot : thread * max_cycle_length + (depth + 1) = thread * max_cycle_length + 1 + depth := by
      omega
    rw [hslot] at h
    exact (congrArg (stack_at · _ (depth + 1)) h).trans (stack_at_update_top _ _ _ _)
  apart slot hs := by
    have hne : slot ≠ thread * max_cycle_length + (depth + 1) := fun he => hs (he ▸ in_slots_add hd)
    exact (congrFun h slot).trans (Function.update_of_ne hne _ _)
  root := by
    have hne : thread * max_cycle_length ≠ thread * max_cycle_length + (depth + 1) := by omega
    have hframe : next.frame (thread * max_cycle_length) = arrays.frame (thread * max_cycle_length) :=
      (congrFun h _).trans (Function.update_of_ne hne _ _)
    exact congrArg TemporalFrame.vertex hframe
  counts := hcounts
  events := hevents

-- A round that goes on from there to a new frame.
theorem temporal_push {middle : TemporalStacks} {top : TemporalFrame} {next : Nat} {timestamp : Int}
    {events : List Event} (hd : depth + 2 < max_cycle_length)
    (h : middle.frame = Function.update arrays.frame (thread * max_cycle_length + (depth + 1)) top)
    (hcounts : events.filterMap Event.bin = [])
    (hevents : ∀ event ∈ events,
      (∃ slot, event = .accessed slot ∧ InSlots max_cycle_length thread slot) ∨
        ∃ cycle_length, event = .counted cycle_length) :
    TemporalRounds max_cycle_length thread arrays
      (arrays.frames (thread * max_cycle_length + 1) depth) (.push top (.enter graph next timestamp))
      (depth + 2 + 1, middle.enter graph (thread * max_cycle_length + (depth + 2)) next timestamp,
        events) := by
  have hstay : TemporalRounds max_cycle_length thread arrays _ (.stay top []) (depth + 2, middle, []) :=
    temporal_stay (by omega) h rfl (by simp)
  have henter := middle.frame_enter (thread * max_cycle_length + (depth + 2)) graph next timestamp
  refine ⟨by dsimp only; omega, ?_, fun slot hs => ?_, ?_, hcounts, hevents⟩
  · have habove : thread * max_cycle_length + (depth + 2) =
        thread * max_cycle_length + 1 + (depth + 1) := by omega
    rw [habove] at henter ⊢
    refine (congrArg (stack_at · _ (depth + 2)) henter).trans ?_
    rw [stack_at_update_top]
    exact congrArg _ hstay.frames
  · have hne : slot ≠ thread * max_cycle_length + (depth + 2) := fun he =>
      hs (he ▸ in_slots_add hd)
    exact ((congrFun henter slot).trans (Function.update_of_ne hne _ _)).trans (hstay.apart slot hs)
  · have hne : thread * max_cycle_length ≠ thread * max_cycle_length + (depth + 2) := by omega
    exact (Function.update_of_ne hne _ _).trans hstay.root

theorem take_timestamp_rounds (hfit : threads * max_cycle_length < 2 ^ 64) (ht : thread < threads)
    (hd : depth + 1 < max_cycle_length) (hroot : arrays.paths (thread * max_cycle_length) = root) :
    TemporalRounds max_cycle_length thread arrays
      (arrays.frames (thread * max_cycle_length + 1) depth)
      (timestamp_move graph max_cycle_length root
        (arrays.frame (thread * max_cycle_length + (depth + 1)))
        (arrays.frames (thread * max_cycle_length + 1) depth))
      (arrays.take_timestamp graph max_cycle_length (wrap (thread * max_cycle_length)) root
        (depth + 2)) := by
  have hslot := wrap_slot hfit ht hd
  have hin : InSlots max_cycle_length thread (thread * max_cycle_length + (depth + 1)) :=
    in_slots_add hd
  have hlen : (arrays.frames (thread * max_cycle_length + 1) depth).length = depth :=
    stack_at_length _ _ _
  have hpath : ∀ vertex, path_contains arrays.paths (wrap (thread * max_cycle_length)) (depth + 2)
      vertex = true ↔ vertex ∈ frame_path root
        (arrays.frame (thread * max_cycle_length + (depth + 1)) ::
          arrays.frames (thread * max_cycle_length + 1) depth) := by
    intro vertex
    have hstack : (arrays.frames (thread * max_cycle_length + 1) depth).map (·.vertex) =
        stack_at arrays.paths (thread * max_cycle_length + 1) depth := stack_at_map _ _ _ _
    rw [path_contains_iff arrays.paths hfit ht (by omega), stack_at, frame_path, List.map_cons,
      List.cons_append, hstack, ← hroot, ← stack_at_bottom]
    rfl
  have hadvance := arrays.frame_timestamp (thread * max_cycle_length + (depth + 1))
    (arrays.timestamp_cursors (thread * max_cycle_length + (depth + 1)) + 1)
  rw [TemporalStacks.take_timestamp, timestamp_move, hlen]
  have hsub : depth + 2 - 1 = depth + 1 := rfl
  have hactive : (arrays.frame (thread * max_cycle_length + (depth + 1))).active_edge =
      arrays.active_edges (thread * max_cycle_length + (depth + 1)) := rfl
  simp only [hsub, hslot, hactive]
  generalize graph.outgoing_neighbors.getD
    (arrays.active_edges (thread * max_cycle_length + (depth + 1))) 0 = next
  have htwo : depth + 2 ≥ 2 := by omega
  simp only [htwo, and_true]
  split_ifs with hclose hfull hmem hseen hseen
  · exact temporal_stay hd hadvance rfl (by simpa using hin)
  · exact temporal_stay hd hadvance rfl (by simpa using hin)
  · refine temporal_stay hd hadvance (bin_path_slots _ _) fun event he => ?_
    rcases List.mem_cons.mp he with rfl | he
    · exact Or.inl ⟨_, rfl, hin⟩
    · exact Or.inl (mem_path_slots hfit ht (by omega) he)
  · exact absurd ((hpath _).mpr hmem) hseen
  · exact absurd ((hpath _).mp hseen) hmem
  · -- a new frame above the advanced one
    have hroom : depth + 2 < max_cycle_length := by omega
    have hslot' := wrap_slot hfit ht hroom
    have hin' : InSlots max_cycle_length thread (thread * max_cycle_length + (depth + 2)) :=
      in_slots_add hroom
    rw [hslot']
    refine temporal_push hroom hadvance ?_ ?_
    · rw [List.filterMap_append, List.filterMap_cons_none rfl, bin_path_slots]
      rfl
    · intro event he
      rcases List.mem_append.mp he with he | he
      · rcases List.mem_cons.mp he with rfl | he
        · exact Or.inl ⟨_, rfl, hin⟩
        · exact Or.inl (mem_path_slots hfit ht (by omega) he)
      · exact Or.inl ⟨_, List.mem_singleton.mp he, hin'⟩

theorem take_edge_rounds (hfit : threads * max_cycle_length < 2 ^ 64) (ht : thread < threads)
    (hd : depth + 1 < max_cycle_length) :
    TemporalRounds max_cycle_length thread arrays
      (arrays.frames (thread * max_cycle_length + 1) depth)
      (edge_move graph window_end (arrays.frame (thread * max_cycle_length + (depth + 1))))
      (arrays.take_edge graph window_end (wrap (thread * max_cycle_length)) (depth + 2)) := by
  have hslot := wrap_slot hfit ht hd
  have hin : InSlots max_cycle_length thread (thread * max_cycle_length + (depth + 1)) :=
    in_slots_add hd
  have hadvance := arrays.frame_edge (thread * max_cycle_length + (depth + 1))
    (arrays.edge_cursors (thread * max_cycle_length + (depth + 1)) + 1)
  rw [TemporalStacks.take_edge, edge_move]
  have hsub : depth + 2 - 1 = depth + 1 := rfl
  have hvertex : (arrays.frame (thread * max_cycle_length + (depth + 1))).vertex =
      arrays.paths (thread * max_cycle_length + (depth + 1)) := rfl
  have hcursor : (arrays.frame (thread * max_cycle_length + (depth + 1))).edge_cursor =
      arrays.edge_cursors (thread * max_cycle_length + (depth + 1)) := rfl
  have harrival : (arrays.frame (thread * max_cycle_length + (depth + 1))).arrival =
      arrays.arrival_timestamps (thread * max_cycle_length + (depth + 1)) := rfl
  simp only [hsub, hslot, hvertex, hcursor, harrival]
  generalize timestamps_after graph.timestamps _ _ _ _ = range
  have hevents : ∀ event ∈ [Event.accessed (thread * max_cycle_length + (depth + 1))],
      (∃ slot, event = .accessed slot ∧ InSlots max_cycle_length thread slot) ∨
        ∃ cycle_length, event = .counted cycle_length := by simpa using hin
  split_ifs with hlast hempty
  · exact ⟨by dsimp only; omega, rfl, fun _ _ => rfl, rfl, rfl, hevents⟩
  · exact temporal_stay hd hadvance rfl hevents
  · exact temporal_stay hd (arrays.frame_active _ _ _ _ _) rfl hevents

theorem temporal_search_round_rounds (hfit : threads * max_cycle_length < 2 ^ 64)
    (ht : thread < threads) (hd : depth + 1 < max_cycle_length)
    (hroot : arrays.paths (thread * max_cycle_length) = root) :
    TemporalRounds max_cycle_length thread arrays
      (arrays.frames (thread * max_cycle_length + 1) depth)
      (temporal_move graph max_cycle_length root window_end
        (arrays.frame (thread * max_cycle_length + (depth + 1)))
        (arrays.frames (thread * max_cycle_length + 1) depth))
      (arrays.search_round graph max_cycle_length (wrap (thread * max_cycle_length)) root window_end
        (depth + 2)) := by
  have hslot := wrap_slot hfit ht hd
  have hsub : depth + 2 - 1 = depth + 1 := rfl
  have hactive : arrays.timestamp_cursors (thread * max_cycle_length + (depth + 1)) <
      arrays.timestamp_ends (thread * max_cycle_length + (depth + 1)) ↔
      (arrays.frame (thread * max_cycle_length + (depth + 1))).timestamp_cursor <
        (arrays.frame (thread * max_cycle_length + (depth + 1))).timestamp_end := Iff.rfl
  rw [TemporalStacks.search_round, temporal_move, hsub, hslot]
  simp only [hactive]
  split_ifs
  · exact take_timestamp_rounds hfit ht hd hroot
  · exact take_edge_rounds hfit ht hd

end Round

end CycleEnum.Cuda
