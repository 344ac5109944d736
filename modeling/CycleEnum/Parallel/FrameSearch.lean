import CycleEnum.Enumeration.Closings
import CycleEnum.Parallel.Stacks

namespace CycleEnum.Parallel

open Enumeration

-- Rows of arcs, some of which a search does not follow.
structure ArcRows (V A : Type) where
  row : V → List A
  admits : V → A → Bool
  target : A → V

variable {V A : Type} [DecidableEq V]

def ArcRows.successors (g : ArcRows V A) (v : V) : List V :=
  ((g.row v).filter (g.admits v)).map g.target

-- An open frame is a vertex with the arcs of its row that are still to be looked at. The
-- root lies below all frames.
def path_of (root : V) (frames : List (V × List A)) : List V := frames.map (·.1) ++ [root]

section Search

variable (g : ArcRows V A) (root : V) (limit fuel : Nat)

-- The lengths of the closings over one arc that leaves the top of a path.
def arc_lengths (path : List V) (v : V) (arc : A) : List Nat :=
  if g.admits v arc then
    (branch root (some limit) path (fun next =>
      closings g.successors root (some limit) fuel (next :: path)) (g.target arc)).map List.length
  else []

-- The lengths that the open frames still lead to, in the order of the search.
def frames_pending : List (V × List A) → List Nat
  | [] => []
  | top :: below =>
      top.2.flatMap (arc_lengths g root limit fuel (path_of root (top :: below)) top.1) ++
        frames_pending below

-- One round of the search on its open frames.
def frame_move (top : V × List A) (below : List (V × List A)) : Move (V × List A) Nat :=
  let depth := below.length + 2
  match top.2 with
  | [] => .pop
  | arc :: rest =>
      if !g.admits top.1 arc then .stay (top.1, rest) []
      else if g.target arc = root then .stay (top.1, rest) [depth]
      else if depth ≥ limit ∨ g.target arc ∈ path_of root (top :: below) then .stay (top.1, rest) []
      else .push (top.1, rest) (g.target arc, g.row (g.target arc))

-- What is known of the open frames. The first vertex may be the root.
structure OpenSearch (verts : List V) (frames : List (V × List A)) : Prop where
  nodup : (frames.map (·.1)).Nodup
  no_root : root ∉ (frames.map (·.1)).dropLast
  inside : ∀ v ∈ frames.map (·.1), v ∈ verts
  rows : ∀ frame ∈ frames, frame.2 <:+ g.row frame.1
  short : frames.length < limit

end Search

variable {g : ArcRows V A} {root : V} {limit fuel most : Nat} {verts : List V} {top : V × List A}
  {below : List (V × List A)}

omit [DecidableEq V] in
theorem OpenSearch.pop (h : OpenSearch g root limit verts (top :: below)) :
    OpenSearch g root limit verts below where
  nodup := (List.nodup_cons.mp h.nodup).2
  no_root hroot := by
    cases below with
    | nil => cases hroot
    | cons frame below => exact h.no_root (List.mem_cons_of_mem _ hroot)
  inside v hv := h.inside v (List.mem_cons_of_mem _ hv)
  rows frame hf := h.rows frame (List.mem_cons_of_mem _ hf)
  short := Nat.lt_of_succ_lt h.short

-- No vertex above the first is on the path below it.
omit [DecidableEq V] in
theorem OpenSearch.top_new (h : OpenSearch g root limit verts (top :: below)) (hne : below ≠ []) :
    top.1 ∉ path_of root below := by
  intro hm
  rcases List.mem_append.mp hm with hm | hm
  · exact (List.nodup_cons.mp h.nodup).1 hm
  · obtain rfl := List.mem_singleton.mp hm
    obtain ⟨frame, rest, rfl⟩ := List.exists_cons_of_ne_nil hne
    exact h.no_root List.mem_cons_self

omit [DecidableEq V] in
theorem OpenSearch.stay {arc : A} {rest : List A} (hrest : top.2 = arc :: rest)
    (h : OpenSearch g root limit verts (top :: below)) :
    OpenSearch g root limit verts ((top.1, rest) :: below) where
  nodup := h.nodup
  no_root := h.no_root
  inside := h.inside
  rows frame hf := by
    rcases List.mem_cons.mp hf with rfl | hf
    · have hsuffix := h.rows top List.mem_cons_self
      rw [hrest] at hsuffix
      exact (List.suffix_cons arc rest).trans hsuffix
    · exact h.rows frame (List.mem_cons_of_mem _ hf)
  short := h.short

omit [DecidableEq V] in
theorem OpenSearch.push (h : OpenSearch g root limit verts (top :: below)) {next : V}
    (hnext : next ∈ verts) (hnew : next ∉ path_of root (top :: below))
    (hroom : below.length + 2 < limit) :
    OpenSearch g root limit verts ((next, g.row next) :: top :: below) where
  nodup := List.nodup_cons.mpr ⟨fun hm => hnew (List.mem_append_left _ hm), h.nodup⟩
  no_root hroot := by
    rcases List.mem_cons.mp hroot with rfl | hroot
    · exact hnew (List.mem_append_right _ List.mem_cons_self)
    · exact h.no_root hroot
  inside v hv := by
    rcases List.mem_cons.mp hv with rfl | hv
    · exact hnext
    · exact h.inside v hv
  rows frame hf := by
    rcases List.mem_cons.mp hf with rfl | hf
    · exact List.suffix_refl _
    · exact h.rows frame hf
  short := hroom

section Rows

variable (hverts : ∀ v, ∀ arc ∈ g.row v, g.target arc ∈ verts) (hfuel : verts.length ≤ fuel)

include hverts hfuel

-- A frame with its whole row leads to all closings of its path.
theorem row_lengths_eq {v : V} (h : OpenSearch g root limit verts ((v, g.row v) :: below)) :
    (g.row v).flatMap (arc_lengths g root limit fuel (v :: path_of root below) v) =
      (closings g.successors root (some limit) fuel (v :: path_of root below)).map List.length := by
  have hsucc : ∀ v, ∀ next ∈ g.successors v, next ∈ verts := by
    intro v next hnext
    obtain ⟨arc, harc, rfl⟩ := List.mem_map.mp hnext
    exact hverts v arc (List.mem_filter.mp harc).1
  have hmore : closings g.successors root (some limit) (fuel + 1) (v :: path_of root below) =
      closings g.successors root (some limit) fuel (v :: path_of root below) :=
    closings_fuel_above verts [root] hsucc fuel (fuel + 1) (((v, g.row v) :: below).map (·.1))
      h.nodup h.inside (List.cons_ne_nil _ _) (by simp only [List.map_cons, List.length_cons]; omega)
      (by omega)
  rw [← hmore, closings_row fuel v (path_of root below) rfl, List.map_flatMap]
  refine List.flatMap_congr fun arc _ => ?_
  unfold arc_lengths
  split_ifs
  · rfl
  · rfl

-- What one round keeps and how it counts.
structure FrameMoved (g : ArcRows V A) (root : V) (limit fuel most : Nat) (verts : List V)
    (top : V × List A) (below : List (V × List A)) (move : Move (V × List A) Nat) : Prop where
  open_frames : OpenSearch g root limit verts (move.apply below)
  pending : frames_pending g root limit fuel (top :: below) =
    move.events ++ frames_pending g root limit fuel (move.apply below)
  uses : move.Uses (fun frame => frame.2.length) most (limit - 1) top below

omit hverts hfuel in
-- A round that looks at an arc and stays at its vertex.
theorem OpenSearch.stays (h : OpenSearch g root limit verts (top :: below)) {arc : A} {rest : List A}
    (hrest : top.2 = arc :: rest) {lengths : List Nat}
    (hlengths : arc_lengths g root limit fuel (path_of root (top :: below)) top.1 arc = lengths) :
    FrameMoved g root limit fuel most verts top below (.stay (top.1, rest) lengths) where
  open_frames := h.stay hrest
  pending := by
    change frames_pending g root limit fuel (top :: below) =
      lengths ++ frames_pending g root limit fuel ((top.1, rest) :: below)
    rw [frames_pending, frames_pending, hrest, List.flatMap_cons, hlengths, List.append_assoc]
    rfl
  uses := by
    change rest.length < top.2.length
    rw [hrest, List.length_cons]
    omega

theorem OpenSearch.moves (hmost : ∀ v ∈ verts, (g.row v).length ≤ most)
    (h : OpenSearch g root limit verts (top :: below)) :
    FrameMoved g root limit fuel most verts top below (frame_move g root limit top below) := by
  have hlen : (path_of root (top :: below)).length = below.length + 2 := by simp [path_of]
  unfold frame_move
  cases hrest : top.2 with
  | nil =>
      refine ⟨h.pop, ?_, trivial⟩
      change frames_pending g root limit fuel (top :: below) =
        [] ++ frames_pending g root limit fuel below
      rw [frames_pending, hrest]
      rfl
  | cons arc rest =>
      have hstay : ∀ lengths,
          arc_lengths g root limit fuel (path_of root (top :: below)) top.1 arc = lengths →
          FrameMoved g root limit fuel most verts top below (.stay (top.1, rest) lengths) :=
        fun lengths hl => h.stays hrest hl
      dsimp only
      cases hadmits : g.admits top.1 arc with
      | false =>
          refine hstay _ ?_
          rw [arc_lengths, hadmits]
          rfl
      | true =>
          rw [if_neg (by simp)]
          by_cases hroot : g.target arc = root
          · rw [if_pos hroot]
            refine hstay _ ?_
            rw [arc_lengths, hadmits, if_pos rfl, branch_root hroot, ← hlen]
            rfl
          rw [if_neg hroot]
          by_cases hskip : below.length + 2 ≥ limit ∨ g.target arc ∈ path_of root (top :: below)
          · rw [if_pos hskip]
            refine hstay _ ?_
            have hnone : g.target arc ∈ path_of root (top :: below) ∨
                cut (some limit) (path_of root (top :: below)).length = true := by
              rw [hlen]
              exact hskip.symm.imp id fun hlimit => by simpa [cut] using hlimit
            rw [arc_lengths, hadmits, if_pos rfl, branch_skip hroot hnone]
            rfl
          · -- the new frame leads to all closings behind the arc
            obtain ⟨hroom, hmem⟩ := not_or.mp hskip
            have hmine : arc ∈ g.row top.1 :=
              (h.rows top List.mem_cons_self).subset (hrest ▸ List.mem_cons_self)
            have hnext := hverts top.1 arc hmine
            have hopen := (h.stay hrest).push hnext hmem (by omega)
            have hcut : cut (some limit) (path_of root (top :: below)).length = false := by
              rw [hlen]
              simpa [cut] using hroom
            have hchild := row_lengths_eq hverts hfuel hopen
            have hthis : arc_lengths g root limit fuel (path_of root (top :: below)) top.1 arc =
                (closings g.successors root (some limit) fuel
                  (g.target arc :: path_of root (top :: below))).map List.length := by
              rw [arc_lengths, hadmits, if_pos rfl, branch_enter hroot hmem hcut]
            rw [if_neg hskip]
            refine ⟨hopen, ?_, ?_, hmost _ hnext, by omega⟩
            · change frames_pending g root limit fuel (top :: below) = [] ++ frames_pending g root
                limit fuel ((g.target arc, g.row (g.target arc)) :: (top.1, rest) :: below)
              rw [frames_pending, hrest, List.flatMap_cons, hthis, frames_pending, frames_pending,
                List.nil_append, List.append_assoc]
              exact congrArg (· ++ _) hchild.symm
            · dsimp only
              rw [hrest, List.length_cons]
              omega

-- A search starts with its first vertex above the root and leads to all their closings.
theorem open_search_start (root : V) {first : V} (hfirst : first ∈ verts) (hlimit : 2 ≤ limit) :
    OpenSearch g root limit verts [(first, g.row first)] ∧
      frames_pending g root limit fuel [(first, g.row first)] =
        (closings g.successors root (some limit) fuel [first, root]).map List.length := by
  have hopen : OpenSearch g root limit verts [(first, g.row first)] := by
    refine ⟨by simp, by simp, by simpa using hfirst, by simp, hlimit⟩
  refine ⟨hopen, ?_⟩
  rw [frames_pending, frames_pending, List.append_nil]
  exact row_lengths_eq hverts hfuel hopen

end Rows

end CycleEnum.Parallel
