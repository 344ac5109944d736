import CycleEnum.Cuda.RootKernels
import CycleEnum.Parallel.Stacks
import CycleEnum.Sequential.BruteforceClosings

namespace CycleEnum.Cuda

open Parallel
open Enumeration (closings branch branch_root branch_skip branch_enter)
open CycleEnum.Sequential (OnPath closings_outgoing_row on_path_root static_successors
  static_closings)

-- The slots of a thread.
def InSlots (max_cycle_length thread slot : Nat) : Prop :=
  thread * max_cycle_length ≤ slot ∧ slot < (thread + 1) * max_cycle_length

-- A thread's event touches no other thread's slots.
def OwnSlots (max_cycle_length thread : Nat) (event : Event) : Prop :=
  ∀ slot, event = .accessed slot → InSlots max_cycle_length thread slot

theorem in_slots_unique {max_cycle_length thread other slot : Nat}
    (h : InSlots max_cycle_length thread slot) (h' : InSlots max_cycle_length other slot) :
    other = thread := by
  obtain ⟨h₁, h₂⟩ := h
  obtain ⟨h₃, h₄⟩ := h'
  have hlt : thread < other + 1 := Nat.lt_of_mul_lt_mul_right (Nat.lt_of_le_of_lt h₁ h₄)
  have hlt' : other < thread + 1 := Nat.lt_of_mul_lt_mul_right (Nat.lt_of_le_of_lt h₃ h₂)
  omega

theorem in_slots_add {max_cycle_length thread k : Nat} (hk : k < max_cycle_length) :
    InSlots max_cycle_length thread (thread * max_cycle_length + k) := by
  refine ⟨by omega, ?_⟩
  rw [Nat.add_mul, Nat.one_mul]
  omega

-- Where the stacks of all threads fit the offsets, no slot is computed wrongly.
theorem wrap_slot {max_cycle_length threads thread k : Nat} (hfit : threads * max_cycle_length < 2 ^ 64)
    (ht : thread < threads) (hk : k < max_cycle_length) :
    wrap (wrap (thread * max_cycle_length) + k) = thread * max_cycle_length + k := by
  have hle : (thread + 1) * max_cycle_length ≤ threads * max_cycle_length :=
    Nat.mul_le_mul_right _ ht
  rw [Nat.add_mul, Nat.one_mul] at hle
  rw [wrap_add, wrap_eq (by omega)]

theorem wrap_base {max_cycle_length threads thread : Nat} (hfit : threads * max_cycle_length < 2 ^ 64)
    (ht : thread < threads) : wrap (thread * max_cycle_length) = thread * max_cycle_length :=
  wrap_eq (Nat.lt_of_le_of_lt (Nat.mul_le_mul_right _ (Nat.le_of_lt ht)) hfit)

namespace Stacks

-- The open frames of a thread, each a vertex of its path with the cursor in its row.
def frames (arrays : Stacks) (base depth : Nat) : List (Nat × Nat) :=
  stack_at (fun slot => (arrays.paths slot, arrays.cursors slot)) base depth

-- Two states of the arrays agree on the slots of a thread.
def Same (max_cycle_length thread : Nat) (arrays arrays' : Stacks) : Prop :=
  ∀ slot, InSlots max_cycle_length thread slot →
    arrays'.paths slot = arrays.paths slot ∧ arrays'.cursors slot = arrays.cursors slot

theorem Same.frames {max_cycle_length thread depth : Nat} {arrays arrays' : Stacks}
    (h : Same max_cycle_length thread arrays arrays') (hd : depth ≤ max_cycle_length) :
    arrays'.frames (thread * max_cycle_length) depth =
      arrays.frames (thread * max_cycle_length) depth :=
  stack_at_congr fun k hk => by
    have hin : InSlots max_cycle_length thread (thread * max_cycle_length + k) :=
      in_slots_add (by omega)
    obtain ⟨hp, hc⟩ := h _ hin
    rw [hp, hc]

theorem frames_advance (arrays : Stacks) (base depth cursor : Nat) :
    ({ arrays with cursors := Function.update arrays.cursors (base + depth) cursor } : Stacks).frames
        base (depth + 1) = (arrays.paths (base + depth), cursor) :: arrays.frames base depth := by
  have hslots : (fun slot => (arrays.paths slot,
      Function.update arrays.cursors (base + depth) cursor slot)) =
      Function.update (fun slot => (arrays.paths slot, arrays.cursors slot)) (base + depth)
        (arrays.paths (base + depth), cursor) := by
    funext slot
    by_cases hs : slot = base + depth
    · simp [hs]
    · simp [hs]
  exact (congrArg (stack_at · base (depth + 1)) hslots).trans (stack_at_update_top _ _ _ _)

theorem frames_enter (arrays : Stacks) (graph : CudaGraphData) (base depth vertex : Nat) :
    (arrays.enter graph (base + depth) vertex).frames base (depth + 1) =
      (vertex, graph.outgoing_offsets.getD vertex 0) :: arrays.frames base depth := by
  have hslots : (fun slot => (Function.update arrays.paths (base + depth) vertex slot,
      Function.update arrays.cursors (base + depth) (graph.outgoing_offsets.getD vertex 0) slot)) =
      Function.update (fun slot => (arrays.paths slot, arrays.cursors slot)) (base + depth)
        (vertex, graph.outgoing_offsets.getD vertex 0) := by
    funext slot
    by_cases hs : slot = base + depth
    · simp [hs]
    · simp [hs]
  exact (congrArg (stack_at · base (depth + 1)) hslots).trans (stack_at_update_top _ _ _ _)

end Stacks

-- The round of the search on the open frames alone.
def root_move (graph : CudaGraphData) (max_cycle_length root : Nat) (top : Nat × Nat)
    (below : List (Nat × Nat)) : Move (Nat × Nat) Nat :=
  let depth := below.length + 1
  if top.2 ≥ graph.outgoing_offsets.getD (next_id top.1) 0 then .pop
  else
    let next := graph.outgoing_neighbors.getD top.2 0
    if next = root ∧ depth ≥ 2 then .stay (top.1, top.2 + 1) [depth]
    else if next ≤ root ∨ depth ≥ max_cycle_length then .stay (top.1, top.2 + 1) []
    else if next ∈ top.1 :: below.map (·.1) then .stay (top.1, top.2 + 1) []
    else .push (top.1, top.2 + 1) (next, graph.outgoing_offsets.getD next 0)

section Round

variable {graph : CudaGraphData} {max_cycle_length threads thread root depth : Nat}
  {arrays : Stacks}

theorem path_contains_iff (paths : Nat → Nat) (hfit : threads * max_cycle_length < 2 ^ 64)
    (ht : thread < threads) (hd : depth ≤ max_cycle_length) (vertex : Nat) :
    path_contains paths (wrap (thread * max_cycle_length)) depth vertex = true ↔
      vertex ∈ stack_at paths (thread * max_cycle_length) depth := by
  rw [mem_stack_at]
  simp only [path_contains, List.any_eq_true, List.mem_range, decide_eq_true_eq]
  constructor
  · rintro ⟨k, hk, h⟩
    rw [wrap_slot hfit ht (by omega)] at h
    exact ⟨k, hk, h⟩
  · rintro ⟨k, hk, h⟩
    refine ⟨k, hk, ?_⟩
    rw [wrap_slot hfit ht (by omega)]
    exact h

theorem mem_path_slots (hfit : threads * max_cycle_length < 2 ^ 64) (ht : thread < threads)
    (hd : depth ≤ max_cycle_length) {event : Event}
    (h : event ∈ path_slots (wrap (thread * max_cycle_length)) depth) :
    ∃ slot, event = .accessed slot ∧ InSlots max_cycle_length thread slot := by
  obtain ⟨k, hk, rfl⟩ := List.mem_map.mp h
  have hk := List.mem_range.mp hk
  exact ⟨_, rfl, by
    rw [wrap_slot hfit ht (by omega)]
    exact in_slots_add (by omega)⟩

-- What a round does to the arrays when it moves on the open frames as given.
structure Rounds (max_cycle_length thread : Nat) (arrays : Stacks) (below : List (Nat × Nat))
    (move : Move (Nat × Nat) Nat) (result : Nat × Stacks × List Event) : Prop where
  frames : result.2.1.frames (thread * max_cycle_length) result.1 = move.apply below
  apart : ∀ slot, ¬InSlots max_cycle_length thread slot →
    result.2.1.paths slot = arrays.paths slot ∧ result.2.1.cursors slot = arrays.cursors slot
  counts : result.2.2.filterMap Event.bin = move.events
  events : ∀ event ∈ result.2.2,
    (∃ slot, event = .accessed slot ∧ InSlots max_cycle_length thread slot) ∨
      ∃ cycle_length, event = .counted cycle_length

theorem bin_path_slots (base depth : Nat) : (path_slots base depth).filterMap Event.bin = [] := by
  rw [path_slots, List.filterMap_map]
  exact List.filterMap_eq_nil_iff.mpr fun _ _ => rfl

theorem search_round_rounds (hfit : threads * max_cycle_length < 2 ^ 64) (ht : thread < threads)
    (hd : depth < max_cycle_length) :
    Rounds max_cycle_length thread arrays (arrays.frames (thread * max_cycle_length) depth)
      (root_move graph max_cycle_length root
        (arrays.paths (thread * max_cycle_length + depth),
          arrays.cursors (thread * max_cycle_length + depth))
        (arrays.frames (thread * max_cycle_length) depth))
      (arrays.search_round graph max_cycle_length (wrap (thread * max_cycle_length)) root
        (depth + 1)) := by
  have hslot := wrap_slot hfit ht hd
  have hin : InSlots max_cycle_length thread (thread * max_cycle_length + depth) := in_slots_add hd
  have hlen : (arrays.frames (thread * max_cycle_length) depth).length = depth := stack_at_length _ _ _
  have hpath : ∀ vertex, path_contains arrays.paths (wrap (thread * max_cycle_length)) (depth + 1)
      vertex = true ↔ vertex ∈ arrays.paths (thread * max_cycle_length + depth) ::
        (arrays.frames (thread * max_cycle_length) depth).map (·.1) := by
    intro vertex
    rw [path_contains_iff arrays.paths hfit ht hd, Stacks.frames, stack_at_map, stack_at]
  have hne : ∀ slot, ¬InSlots max_cycle_length thread slot → slot ≠ thread * max_cycle_length + depth :=
    fun slot h he => h (he ▸ hin)
  have hadvance := Stacks.frames_advance arrays (thread * max_cycle_length) depth
    (arrays.cursors (thread * max_cycle_length + depth) + 1)
  rw [Stacks.search_round, root_move, hlen]
  simp only [Nat.add_sub_cancel, hslot]
  split_ifs with hlast hclose hlow hmem hseen hseen
  · exact ⟨rfl, fun _ _ => ⟨rfl, rfl⟩, rfl, by simpa using hin⟩
  · exact ⟨hadvance, fun slot h => ⟨rfl, Function.update_of_ne (hne slot h) _ _⟩, rfl,
      by simpa using hin⟩
  · exact ⟨hadvance, fun slot h => ⟨rfl, Function.update_of_ne (hne slot h) _ _⟩, rfl,
      by simpa using hin⟩
  · refine ⟨hadvance, fun slot h => ⟨rfl, Function.update_of_ne (hne slot h) _ _⟩, ?_, ?_⟩
    · exact bin_path_slots _ _
    · intro event he
      rcases List.mem_cons.mp he with rfl | he
      · exact Or.inl ⟨_, rfl, hin⟩
      · exact Or.inl (mem_path_slots hfit ht hd he)
  · exact absurd ((hpath _).mpr hmem) hseen
  · exact absurd ((hpath _).mp hseen) hmem
  · -- a new frame above the advanced one
    have hroom : depth + 1 < max_cycle_length := by omega
    have hslot' := wrap_slot hfit ht hroom
    have hin' : InSlots max_cycle_length thread (thread * max_cycle_length + (depth + 1)) :=
      in_slots_add hroom
    rw [hslot']
    refine ⟨?_, fun slot h => ?_, ?_, ?_⟩
    · refine (Stacks.frames_enter _ graph (thread * max_cycle_length) (depth + 1) _).trans ?_
      rw [hadvance]
      rfl
    · have hne' : slot ≠ thread * max_cycle_length + (depth + 1) := fun he => h (he ▸ hin')
      exact ⟨Function.update_of_ne hne' _ _,
        (Function.update_of_ne hne' _ _).trans (Function.update_of_ne (hne slot h) _ _)⟩
    · change ((Event.accessed _ :: path_slots _ _) ++ [Event.accessed _]).filterMap Event.bin = []
      rw [List.filterMap_append, List.filterMap_cons_none rfl, bin_path_slots]
      rfl
    · intro event he
      rcases List.mem_append.mp he with he | he
      · rcases List.mem_cons.mp he with rfl | he
        · exact Or.inl ⟨_, rfl, hin⟩
        · exact Or.inl (mem_path_slots hfit ht hd he)
      · exact Or.inl ⟨_, List.mem_singleton.mp he, hin'⟩

end Round

section Pending

-- The lengths of the cycles over one edge that leaves the top of a path.
def edge_lengths (graph : GraphView) (max_cycle_length root : Nat) (path : List Nat)
    (edge : AdjacencyEntry) : List Nat :=
  if root ≤ edge.vertex then
    (branch root (some max_cycle_length) path (fun next => closings (static_successors graph root) root
      (some max_cycle_length) graph.vertex_count (next :: path)) edge.vertex).map List.length
  else []

-- The lengths of the cycles that open frames still lead to, in the order of the search.
def root_pending (graph : GraphView) (max_cycle_length root : Nat) : List (Nat × Nat) → List Nat
  | [] => []
  | top :: below =>
      (graph.outgoing_edges.extract top.2 (graph.outgoing_offsets.getD (next_id top.1) 0)).flatMap
          (edge_lengths graph max_cycle_length root (top.1 :: below.map (·.1))) ++
        root_pending graph max_cycle_length root below

-- What is known of the open frames of a search.
structure OpenFrames (graph : GraphView) (max_cycle_length root : Nat) (frames : List (Nat × Nat)) :
    Prop where
  nodup : (frames.map (·.1)).Nodup
  inside : ∀ frame ∈ frames, frame.1 < graph.vertex_count ∧
    graph.outgoing_offsets.getD frame.1 0 ≤ frame.2 ∧
    frame.2 ≤ graph.outgoing_offsets.getD (next_id frame.1) 0
  bottom : frames = [] ∨ [root] <:+ frames.map (·.1)
  short : frames.length ≤ max_cycle_length

-- The edges a frame has still to look at.
def edges_left (graph : GraphView) (frame : Nat × Nat) : Nat :=
  graph.outgoing_offsets.getD (next_id frame.1) 0 - frame.2

variable {graph : GraphView} {max_cycle_length root : Nat} {top : Nat × Nat}
  {below : List (Nat × Nat)}

theorem OpenFrames.on_path (h : OpenFrames graph max_cycle_length root (top :: below)) :
    OnPath graph root (top.1 :: below.map (·.1)) where
  nodup := h.nodup
  mem v hv := by
    obtain ⟨frame, hf, rfl⟩ := List.mem_map.mp (show v ∈ (top :: below).map (·.1) from hv)
    exact List.mem_range.mpr (h.inside frame hf).1
  root_mem := (h.bottom.resolve_left (by simp)).subset (List.mem_singleton_self root)

theorem OpenFrames.pop (h : OpenFrames graph max_cycle_length root (top :: below)) :
    OpenFrames graph max_cycle_length root below where
  nodup := (List.nodup_cons.mp h.nodup).2
  inside frame hf := h.inside frame (List.mem_cons_of_mem _ hf)
  bottom := by
    rcases List.suffix_cons_iff.mp (h.bottom.resolve_left (by simp)) with he | hs
    · exact Or.inl (List.map_eq_nil_iff.mp (List.cons.inj he).2.symm)
    · exact Or.inr hs
  short := Nat.le_of_succ_le h.short

theorem OpenFrames.advance (h : OpenFrames graph max_cycle_length root (top :: below))
    (hc : top.2 < graph.outgoing_offsets.getD (next_id top.1) 0) :
    OpenFrames graph max_cycle_length root ((top.1, top.2 + 1) :: below) where
  nodup := h.nodup
  inside frame hf := by
    rcases List.mem_cons.mp hf with rfl | hf
    · obtain ⟨hv, hlow, -⟩ := h.inside top (by simp)
      exact ⟨hv, by dsimp only; omega, by dsimp only; omega⟩
    · exact h.inside frame (List.mem_cons_of_mem _ hf)
  bottom := Or.inr (h.bottom.resolve_left (by simp))
  short := h.short

theorem OpenFrames.push (hg : Readable graph)
    (h : OpenFrames graph max_cycle_length root (top :: below)) {next : Nat}
    (hnext : next < graph.vertex_count) (hm : next ∉ top.1 :: below.map (·.1))
    (hroom : below.length + 1 < max_cycle_length) :
    OpenFrames graph max_cycle_length root
      ((next, graph.outgoing_offsets.getD next 0) :: top :: below) where
  nodup := List.nodup_cons.mpr ⟨hm, h.nodup⟩
  inside frame hf := by
    rcases List.mem_cons.mp hf with rfl | hf
    · exact ⟨hnext, Nat.le_refl _, (hg.offset_le hnext).1⟩
    · exact h.inside frame hf
  bottom := Or.inr ((h.bottom.resolve_left (by simp)).trans (List.suffix_cons _ _))
  short := hroom

-- A frame at the begin of its row leads to all closings of its path.
theorem row_lengths (max_cycle_length v : Nat) (path : List Nat) (h : OnPath graph root (v :: path))
    (hw : graph.WellFormed) :
    (graph.outgoing_row v).flatMap (edge_lengths graph max_cycle_length root (v :: path)) =
      (closings (static_successors graph root) root (some max_cycle_length) graph.vertex_count
        (v :: path)).map List.length := by
  rw [closings_outgoing_row hw _ h, List.map_flatMap]
  refine List.flatMap_congr fun edge _ => ?_
  rw [edge_lengths, apply_ite (List.map List.length), List.map_nil]

-- What a move keeps and how it counts.
structure Moved (graph : GraphView) (max_cycle_length root : Nat) (top : Nat × Nat)
    (below : List (Nat × Nat)) (move : Move (Nat × Nat) Nat) : Prop where
  open_frames : OpenFrames graph max_cycle_length root (move.apply below)
  pending : root_pending graph max_cycle_length root (top :: below) =
    move.events ++ root_pending graph max_cycle_length root (move.apply below)
  uses : move.Uses (edges_left graph) graph.outgoing_edges.length max_cycle_length top below

-- A round that looks at an edge and stays at its vertex.
theorem OpenFrames.stay (hg : Readable graph)
    (h : OpenFrames graph max_cycle_length root (top :: below))
    (hc : top.2 < graph.outgoing_offsets.getD (next_id top.1) 0) {edge : AdjacencyEntry}
    (he : graph.outgoing_edges[top.2]? = some edge) {lengths : List Nat}
    (hlengths : edge_lengths graph max_cycle_length root (top.1 :: below.map (·.1)) edge = lengths) :
    Moved graph max_cycle_length root top below (.stay (top.1, top.2 + 1) lengths) := by
  obtain ⟨edge', he', hrow⟩ := hg.extract_cons (h.inside top (by simp)).1 hc
  obtain rfl : edge = edge' := Option.some.inj (he.symm.trans he')
  refine ⟨h.advance hc, ?_, ?_⟩
  · change root_pending graph max_cycle_length root (top :: below) =
      lengths ++ root_pending graph max_cycle_length root ((top.1, top.2 + 1) :: below)
    rw [root_pending, root_pending, hrow, List.flatMap_cons, hlengths, List.append_assoc]
  · change edges_left graph (top.1, top.2 + 1) < edges_left graph top
    unfold edges_left
    dsimp only
    omega

theorem OpenFrames.move (hg : Readable graph)
    (h : OpenFrames graph max_cycle_length root (top :: below)) :
    Moved graph max_cycle_length root top below
      (root_move (packed graph) max_cycle_length root top below) := by
  obtain ⟨hv, hlow, hhigh⟩ := h.inside top (by simp)
  have hlen : (top.1 :: below.map (·.1)).length = below.length + 1 := by simp
  unfold root_move
  have hoffsets : (packed graph).outgoing_offsets = graph.outgoing_offsets := rfl
  simp only [hoffsets]
  by_cases hlast : top.2 ≥ graph.outgoing_offsets.getD (next_id top.1) 0
  · rw [if_pos hlast]
    refine ⟨h.pop, ?_, trivial⟩
    rw [root_pending, extract_eq_nil _ hlast]
    rfl
  have hc : top.2 < graph.outgoing_offsets.getD (next_id top.1) 0 := Nat.lt_of_not_le hlast
  obtain ⟨edge, he, hrow⟩ := hg.extract_cons hv hc
  have hedge : edge ∈ graph.outgoing_row top.1 := mem_outgoing_row hlow hc he
  have hnext := (packed_slot he).1
  have hstay : ∀ lengths,
      edge_lengths graph max_cycle_length root (top.1 :: below.map (·.1)) edge = lengths →
      Moved graph max_cycle_length root top below (.stay (top.1, top.2 + 1) lengths) :=
    fun lengths hl => h.stay hg hc he hl
  rw [if_neg hlast, hnext]
  by_cases hclose : edge.vertex = root ∧ below.length + 1 ≥ 2
  · rw [if_pos hclose]
    refine hstay _ ?_
    rw [edge_lengths, if_pos (Nat.le_of_eq hclose.1.symm), branch_root hclose.1]
    simp
  rw [if_neg hclose]
  have hroot : edge.vertex ≠ root := by
    intro hr
    have hone : below = [] := List.length_eq_zero_iff.mp (by omega)
    subst hone
    obtain rfl := List.mem_singleton.mp h.on_path.root_mem
    exact hg.well_formed.no_loop _ edge hedge hr
  have hcut_iff : Enumeration.cut (some max_cycle_length) (top.1 :: below.map (·.1)).length = true ↔
      below.length + 1 ≥ max_cycle_length := by
    rw [hlen]
    simp [Enumeration.cut]
  by_cases hskip : edge.vertex ≤ root ∨ below.length + 1 ≥ max_cycle_length
  · rw [if_pos hskip]
    refine hstay _ ?_
    unfold edge_lengths
    by_cases hr : root ≤ edge.vertex
    · have hcut := hcut_iff.mpr (hskip.resolve_left (by omega))
      rw [branch_skip hroot (Or.inr hcut), List.map_nil, ite_self]
    · rw [if_neg hr]
  rw [if_neg hskip]
  have hr : root ≤ edge.vertex := by omega
  by_cases hmem : edge.vertex ∈ top.1 :: below.map (·.1)
  · rw [if_pos hmem]
    refine hstay _ ?_
    rw [edge_lengths, branch_skip hroot (Or.inl hmem), List.map_nil, ite_self]
  rw [if_neg hmem]
  have hcut : Enumeration.cut (some max_cycle_length) (top.1 :: below.map (·.1)).length = false :=
    Bool.eq_false_iff.mpr fun hc => hskip (Or.inr (hcut_iff.mp hc))
  have hin : edge.vertex < graph.vertex_count := (hg.well_formed.bounded _ edge hedge).2
  have hopen := (h.advance hc).push hg hin hmem (by omega)
  refine ⟨hopen, ?_, ?_⟩
  · -- the new frame leads to all closings behind the edge
    change root_pending graph max_cycle_length root (top :: below) = [] ++ root_pending graph
      max_cycle_length root ((edge.vertex, graph.outgoing_offsets.getD edge.vertex 0) ::
        (top.1, top.2 + 1) :: below)
    have hchild := row_lengths max_cycle_length _ _ hopen.on_path hg.well_formed
    have hthis : edge_lengths graph max_cycle_length root (top.1 :: below.map (·.1)) edge =
        (graph.outgoing_row edge.vertex).flatMap (edge_lengths graph max_cycle_length root
          (edge.vertex :: top.1 :: below.map (·.1))) := by
      refine Eq.trans ?_ hchild.symm
      rw [edge_lengths, if_pos hr, branch_enter hroot hmem hcut]
      rfl
    rw [root_pending, hrow, List.flatMap_cons, hthis, root_pending, root_pending, List.nil_append,
      List.append_assoc]
    rfl
  · refine ⟨?_, ?_, by omega⟩
    · unfold edges_left
      dsimp only
      omega
    · have hle := hg.offset_le hin
      unfold edges_left
      dsimp only
      omega

-- A search starts with the root alone and leads to all its closings.
theorem open_root (hg : Readable graph) (hr : root < graph.vertex_count)
    (hmax : 1 ≤ max_cycle_length) :
    OpenFrames graph max_cycle_length root [(root, graph.outgoing_offsets.getD root 0)] ∧
      root_pending graph max_cycle_length root [(root, graph.outgoing_offsets.getD root 0)] =
        (static_closings graph (some max_cycle_length) root).map List.length := by
  refine ⟨⟨List.nodup_singleton _, ?_, Or.inr (List.suffix_refl _), hmax⟩, ?_⟩
  · intro frame hf
    obtain rfl := List.mem_singleton.mp hf
    exact ⟨hr, Nat.le_refl _, (hg.offset_le hr).1⟩
  · have hrow := row_lengths max_cycle_length root [] (on_path_root hr)
      hg.well_formed
    rw [root_pending, root_pending, List.append_nil]
    exact hrow

end Pending

end CycleEnum.Cuda
