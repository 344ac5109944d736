import CycleEnum.Cuda.ItemKernel
import CycleEnum.Cuda.WindowKernel
import CycleEnum.Parallel.FrameSearch

namespace CycleEnum.Cuda

open Parallel

-- The kernel's edge test.
def device_admits (graph : GraphView) (width : Int) (event : CudaStartEvent) (current : Nat)
    (edge : AdjacencyEntry) : Bool :=
  has_timestamp_in_window graph.timestamps edge.timestamp_begin edge.timestamp_end
    event.start_timestamp width (if event.root > current then .Inclusive else .AfterStart)

def window_rows (graph : GraphView) (width : Int) (event : CudaStartEvent) :
    ArcRows Nat AdjacencyEntry :=
  ⟨graph.outgoing_row, device_admits graph width event, (·.vertex)⟩

-- The edges that a frame has still to look at.
def edges_from (graph : GraphView) (frame : Nat × Nat) : Nat × List AdjacencyEntry :=
  (frame.1, graph.outgoing_edges.extract frame.2 (graph.outgoing_offsets.getD (next_id frame.1) 0))

def Stacks.open_edges (arrays : Stacks) (graph : GraphView) (base depth : Nat) :
    List (Nat × List AdjacencyEntry) :=
  (arrays.frames base depth).map (edges_from graph)

-- What a round does to the arrays when it moves on the open frames as given.
structure WindowRounds (graph : GraphView) (max_cycle_length thread : Nat) (arrays : Stacks)
    (below : List (Nat × List AdjacencyEntry)) (move : Move (Nat × List AdjacencyEntry) Nat)
    (result : Nat × Stacks × List Event) : Prop where
  depth : 1 ≤ result.1
  frames : result.2.1.open_edges graph (thread * max_cycle_length + 1) (result.1 - 1) =
    move.apply below
  apart : ∀ slot, ¬InSlots max_cycle_length thread slot →
    result.2.1.paths slot = arrays.paths slot ∧ result.2.1.cursors slot = arrays.cursors slot
  root : result.2.1.paths (thread * max_cycle_length) = arrays.paths (thread * max_cycle_length)
  counts : result.2.2.filterMap Event.bin = move.events
  own_slots : ∀ event ∈ result.2.2, OwnSlots max_cycle_length thread event

section Round

variable {graph : GraphView} {width : Int} {max_cycle_length threads thread depth : Nat}
  {arrays : Stacks} {event : CudaStartEvent}

theorem own_accessed {slot : Nat} (h : InSlots max_cycle_length thread slot) :
    OwnSlots max_cycle_length thread (.accessed slot) := fun slot' hslot => by
  obtain rfl := Event.accessed.inj hslot
  exact h

theorem own_counted (cycle_length : Nat) : OwnSlots max_cycle_length thread (.counted cycle_length) :=
  fun _ hslot => by cases hslot

theorem own_path_slots (hfit : threads * max_cycle_length < 2 ^ 64) (ht : thread < threads)
    (hd : depth ≤ max_cycle_length) :
    ∀ accessed ∈ path_slots (wrap (thread * max_cycle_length)) depth,
      OwnSlots max_cycle_length thread accessed := by
  intro accessed ha
  obtain ⟨slot, rfl, hin⟩ := mem_path_slots hfit ht hd ha
  exact own_accessed hin

-- The path that the kernel scans.
theorem path_of_open_edges (arrays : Stacks) (graph : GraphView) (base depth : Nat) :
    path_of (arrays.paths base) (arrays.open_edges graph (base + 1) depth) =
      stack_at arrays.paths base (depth + 1) := by
  have hmap : (arrays.open_edges graph (base + 1) depth).map (·.1) =
      stack_at arrays.paths (base + 1) depth := by
    rw [Stacks.open_edges, List.map_map]
    exact stack_at_map _ _ _ _
  rw [path_of, hmap, stack_at_bottom]

-- A round that advances the cursor of the top frame.
theorem window_stay (graph : GraphView) (hd : depth + 1 < max_cycle_length) {cursor : Nat}
    {lengths : List Nat} {events : List Event} (hcounts : events.filterMap Event.bin = lengths)
    (hown : ∀ event ∈ events, OwnSlots max_cycle_length thread event) :
    WindowRounds graph max_cycle_length thread arrays
      (arrays.open_edges graph (thread * max_cycle_length + 1) depth)
      (.stay (edges_from graph (arrays.paths (thread * max_cycle_length + (depth + 1)), cursor))
        lengths)
      (depth + 2, { arrays with
        cursors := Function.update arrays.cursors (thread * max_cycle_length + (depth + 1)) cursor },
        events) where
  depth := by dsimp only; omega
  frames := by
    have hslot : thread * max_cycle_length + (depth + 1) = thread * max_cycle_length + 1 + depth := by
      omega
    rw [hslot]
    exact congrArg (List.map (edges_from graph)) (arrays.frames_advance _ depth cursor)
  apart slot hs := by
    have hne : slot ≠ thread * max_cycle_length + (depth + 1) := fun he => hs (he ▸ in_slots_add hd)
    exact ⟨rfl, Function.update_of_ne hne _ _⟩
  root := rfl
  counts := hcounts
  own_slots := hown

-- A round that goes on from there to a new frame.
theorem window_push (graph : GraphView) (hd : depth + 2 < max_cycle_length) {cursor next : Nat}
    {events : List Event} (hcounts : events.filterMap Event.bin = [])
    (hown : ∀ event ∈ events, OwnSlots max_cycle_length thread event) :
    WindowRounds graph max_cycle_length thread arrays
      (arrays.open_edges graph (thread * max_cycle_length + 1) depth)
      (.push (edges_from graph (arrays.paths (thread * max_cycle_length + (depth + 1)), cursor))
        (next, graph.outgoing_row next))
      (depth + 2 + 1, Stacks.enter { arrays with
          cursors := Function.update arrays.cursors (thread * max_cycle_length + (depth + 1)) cursor }
        (packed graph) (thread * max_cycle_length + (depth + 2)) next, events) := by
  have hstay : WindowRounds graph max_cycle_length thread arrays _ (.stay _ []) (depth + 2,
      { arrays with
        cursors := Function.update arrays.cursors (thread * max_cycle_length + (depth + 1)) cursor },
        []) :=
    window_stay graph (by omega) rfl (by simp)
  refine ⟨by dsimp only; omega, ?_, fun slot hs => ?_, ?_, hcounts, hown⟩
  · have habove : thread * max_cycle_length + (depth + 2) =
        thread * max_cycle_length + 1 + (depth + 1) := by omega
    rw [habove]
    refine (congrArg (List.map (edges_from graph))
      (Stacks.frames_enter _ (packed graph) _ (depth + 1) next)).trans ?_
    rw [List.map_cons]
    exact congrArg _ hstay.frames
  · have hne : slot ≠ thread * max_cycle_length + (depth + 2) := fun he => hs (he ▸ in_slots_add hd)
    obtain ⟨hpath, hcursor⟩ := hstay.apart slot hs
    exact ⟨(Function.update_of_ne hne _ _).trans hpath, (Function.update_of_ne hne _ _).trans hcursor⟩
  · have hne : thread * max_cycle_length ≠ thread * max_cycle_length + (depth + 2) := by omega
    exact Function.update_of_ne hne _ _

theorem window_round_rounds (hg : Readable graph) (hfit : threads * max_cycle_length < 2 ^ 64)
    (ht : thread < threads) (hd : depth + 1 < max_cycle_length)
    (hroot : arrays.paths (thread * max_cycle_length) = event.root)
    (hv : arrays.paths (thread * max_cycle_length + (depth + 1)) < graph.vertex_count) :
    WindowRounds graph max_cycle_length thread arrays
      (arrays.open_edges graph (thread * max_cycle_length + 1) depth)
      (frame_move (window_rows graph width event) event.root max_cycle_length
        (edges_from graph (arrays.paths (thread * max_cycle_length + (depth + 1)),
          arrays.cursors (thread * max_cycle_length + (depth + 1))))
        (arrays.open_edges graph (thread * max_cycle_length + 1) depth))
      (arrays.window_round (packed graph) width max_cycle_length (wrap (thread * max_cycle_length))
        event (depth + 2)) := by
  have hslot := wrap_slot hfit ht hd
  have hin : InSlots max_cycle_length thread (thread * max_cycle_length + (depth + 1)) :=
    in_slots_add hd
  have hlen : (arrays.open_edges graph (thread * max_cycle_length + 1) depth).length = depth := by
    rw [Stacks.open_edges, List.length_map]
    exact stack_at_length _ _ _
  have hoffsets : (packed graph).outgoing_offsets = graph.outgoing_offsets := rfl
  have hsub : depth + 2 - 1 = depth + 1 := rfl
  have hone : ∀ accessed ∈ [Event.accessed (thread * max_cycle_length + (depth + 1))],
      OwnSlots max_cycle_length thread accessed := by simpa using own_accessed hin
  rw [Stacks.window_round, frame_move, hlen]
  simp only [hsub, hslot, hoffsets]
  generalize hcursor : arrays.cursors (thread * max_cycle_length + (depth + 1)) = cursor
  by_cases hlast : cursor ≥
      graph.outgoing_offsets.getD (next_id (arrays.paths (thread * max_cycle_length + (depth + 1)))) 0
  · rw [if_pos hlast, edges_from, extract_eq_nil _ hlast]
    exact ⟨by dsimp only; omega, rfl, fun _ _ => ⟨rfl, rfl⟩, rfl, rfl, hone⟩
  rw [if_neg hlast]
  obtain ⟨edge, he, hrow⟩ := hg.extract_cons hv (Nat.lt_of_not_le hlast)
  obtain ⟨hnext, hbegin, hend⟩ := packed_slot he
  have hpath : ∀ vertex, path_contains arrays.paths (wrap (thread * max_cycle_length)) (depth + 2)
      vertex = true ↔ vertex ∈ path_of event.root
        (edges_from graph (arrays.paths (thread * max_cycle_length + (depth + 1)), cursor) ::
          arrays.open_edges graph (thread * max_cycle_length + 1) depth) := fun vertex => by
    rw [path_contains_iff arrays.paths hfit ht (by omega), stack_at, ← path_of_open_edges arrays graph,
      hroot]
    rfl
  have hadmits : has_timestamp_in_window (packed graph).timestamps edge.timestamp_begin
      edge.timestamp_end event.start_timestamp width
      (if event.root > arrays.paths (thread * max_cycle_length + (depth + 1)) then .Inclusive
        else .AfterStart) =
      device_admits graph width event (arrays.paths (thread * max_cycle_length + (depth + 1))) edge :=
    rfl
  rw [hbegin, hend, hadmits, hnext]
  have hfrom : (edges_from graph (arrays.paths (thread * max_cycle_length + (depth + 1)), cursor)).2 =
      edge :: graph.outgoing_edges.extract (cursor + 1) (graph.outgoing_offsets.getD
        (next_id (arrays.paths (thread * max_cycle_length + (depth + 1)))) 0) := hrow
  simp only [hfrom]
  cases hcan : device_admits graph width event
      (arrays.paths (thread * max_cycle_length + (depth + 1))) edge with
  | false =>
      have hno : (window_rows graph width event).admits (edges_from graph
        (arrays.paths (thread * max_cycle_length + (depth + 1)), cursor)).1 edge = false := hcan
      rw [hno, if_pos (by decide), if_pos (by decide)]
      exact window_stay graph hd rfl hone
  | true =>
      have hyes : (window_rows graph width event).admits (edges_from graph
        (arrays.paths (thread * max_cycle_length + (depth + 1)), cursor)).1 edge = true := hcan
      have htarget : (window_rows graph width event).target edge = edge.vertex := rfl
      have hgoes : ¬(!true) = true := by decide
      rw [hyes, if_neg hgoes, if_neg hgoes, htarget]
      by_cases hclose : edge.vertex = event.root
      · rw [if_pos hclose, if_pos ⟨hclose, by omega⟩]
        refine window_stay graph hd rfl fun accessed ha => ?_
        rcases List.mem_pair.mp ha with rfl | rfl
        · exact own_accessed hin
        · exact own_counted _
      have hopen : ¬(edge.vertex = event.root ∧ depth + 2 ≥ 2) := fun h => hclose h.1
      rw [if_neg hclose, if_neg hopen]
      by_cases hfull : depth + 2 ≥ max_cycle_length
      · rw [if_pos (Or.inl hfull), if_pos hfull]
        exact window_stay graph hd rfl hone
      rw [if_neg hfull]
      have hscan : ∀ accessed ∈ Event.accessed (thread * max_cycle_length + (depth + 1)) ::
          path_slots (wrap (thread * max_cycle_length)) (depth + 2),
          OwnSlots max_cycle_length thread accessed := by
        intro accessed ha
        rcases List.mem_cons.mp ha with rfl | ha
        · exact own_accessed hin
        · exact own_path_slots hfit ht (by omega) accessed ha
      by_cases hseen : edge.vertex ∈ path_of event.root (edges_from graph
          (arrays.paths (thread * max_cycle_length + (depth + 1)), cursor) ::
            arrays.open_edges graph (thread * max_cycle_length + 1) depth)
      · rw [if_pos (Or.inr hseen), if_pos ((hpath _).mpr hseen)]
        exact window_stay graph hd (bin_path_slots _ _) hscan
      · -- a new frame above the advanced one
        have hroom : depth + 2 < max_cycle_length := by omega
        rw [if_neg (not_or.mpr ⟨hfull, hseen⟩), if_neg fun h => hseen ((hpath _).mp h),
          wrap_slot hfit ht hroom]
        refine window_push graph hroom ?_ fun accessed ha => ?_
        · rw [List.filterMap_append, List.filterMap_cons_none rfl, bin_path_slots]
          rfl
        · rcases List.mem_append.mp ha with ha | ha
          · exact hscan accessed ha
          · obtain rfl := List.mem_singleton.mp ha
            exact own_accessed (in_slots_add hroom)

end Round

-- What the search from an event may rely on, whether or not its window overflows.
structure CudaStartEvent.InGraph (graph : GraphView) (event : CudaStartEvent) : Prop where
  root_lt : event.root < graph.vertex_count
  first_lt : event.first_vertex < graph.vertex_count
  no_loop : event.first_vertex ≠ event.root

-- The cycles that the kernel finds from an event.
def device_closings (graph : GraphView) (width : Int) (max_cycle_length : Nat)
    (event : CudaStartEvent) : List (List Nat) :=
  Enumeration.closings (window_rows graph width event).successors event.root (some max_cycle_length)
    graph.vertex_count [event.first_vertex, event.root]

section Window

variable (graph : GraphView) (start_events : List CudaStartEvent) (width : Int)
  (max_cycle_length : Nat)

-- What holds of a thread that searches from its start event.
structure WindowSearching (thread : Nat) (event : CudaStartEvent) (depth : Nat) (arrays : Stacks) :
    Prop where
  mine : start_events[thread]? = some event
  depth_pos : 1 ≤ depth
  path_root : arrays.paths (thread * max_cycle_length) = event.root
  open_search : OpenSearch (window_rows graph width event) event.root max_cycle_length
    (List.range graph.vertex_count)
    (arrays.open_edges graph (thread * max_cycle_length + 1) (depth - 1))

def WindowGood (thread : Nat) (register : WindowRegister) (arrays : Stacks) : Prop :=
  match register with
  | .asking => True
  | .searching event depth =>
      WindowSearching graph start_events width max_cycle_length thread event depth arrays

-- The lengths of the cycles that a thread has still to count.
def window_pending (thread : Nat) (register : WindowRegister) (arrays : Stacks) : List Nat :=
  match register with
  | .asking => start_events[thread]?.elim [] fun event =>
      (device_closings graph width max_cycle_length event).map List.length
  | .searching event depth => frames_pending (window_rows graph width event) event.root
      max_cycle_length graph.vertex_count
      (arrays.open_edges graph (thread * max_cycle_length + 1) (depth - 1))

def window_left (thread : Nat) (register : WindowRegister) (arrays : Stacks) : Nat :=
  match register with
  | .asking => (graph.outgoing_edges.length + 1) *
      (graph.outgoing_edges.length + 2) ^ (max_cycle_length - 1 - 1) + 1
  | .searching _ depth => work (fun frame => frame.2.length) graph.outgoing_edges.length
      (max_cycle_length - 1)
      (arrays.open_edges graph (thread * max_cycle_length + 1) (depth - 1))

end Window

section Step

variable {graph : GraphView} {start_events : List CudaStartEvent} {width : Int}
  {max_cycle_length threads thread : Nat}

theorem Stacks.Same.open_edges {depth : Nat} {arrays arrays' : Stacks}
    (h : Stacks.Same max_cycle_length thread arrays arrays') (hd : depth < max_cycle_length) :
    arrays'.open_edges graph (thread * max_cycle_length + 1) depth =
      arrays.open_edges graph (thread * max_cycle_length + 1) depth := by
  refine congrArg (List.map (edges_from graph)) (stack_at_congr fun k hk => ?_)
  have hin : InSlots max_cycle_length thread (thread * max_cycle_length + 1 + k) := by
    rw [Nat.add_assoc]
    exact in_slots_add (by omega)
  obtain ⟨hpath, hcursor⟩ := h _ hin
  rw [hpath, hcursor]

theorem WindowSearching.depth_lt {event : CudaStartEvent} {depth : Nat} {arrays : Stacks}
    (h : WindowSearching graph start_events width max_cycle_length thread event depth arrays) :
    depth - 1 < max_cycle_length := by
  have hshort := h.open_search.short
  rwa [Stacks.open_edges, List.length_map, Stacks.frames, stack_at_length] at hshort

-- A step of a thread, seen from its item.
abbrev WindowStep (graph : GraphView) (start_events : List CudaStartEvent) (width : Int)
    (max_cycle_length : Nat) : Nat → WindowRegister → Stacks →
    Effect WindowRegister Stacks Event → Prop :=
  ItemStep (Stacks.Same max_cycle_length) (WindowGood graph start_events width max_cycle_length)
    Event.bin (OwnSlots max_cycle_length)
    (window_pending graph start_events width max_cycle_length) (window_left graph max_cycle_length)

section Rows

variable (hg : Readable graph)

include hg

theorem window_rows_inside (width : Int) (event : CudaStartEvent) :
    ∀ v, ∀ edge ∈ (window_rows graph width event).row v,
      (window_rows graph width event).target edge ∈ List.range graph.vertex_count :=
  fun v edge he => List.mem_range.mpr (hg.well_formed.bounded v edge he).2

omit hg in
theorem window_rows_most (width : Int) (event : CudaStartEvent) :
    ∀ v ∈ List.range graph.vertex_count,
      ((window_rows graph width event).row v).length ≤ graph.outgoing_edges.length := by
  intro v _
  change (graph.outgoing_edges.extract _ _).length ≤ _
  rw [List.extract_eq_take_drop, List.length_take, List.length_drop]
  omega

theorem window_round_step (hfit : start_events.length * max_cycle_length < 2 ^ 64)
    {event : CudaStartEvent} {depth : Nat} {arrays : Stacks} (hd : depth > 1)
    (h : WindowSearching graph start_events width max_cycle_length thread event depth arrays)
    {result : Nat × Stacks × List Event}
    (hresult : arrays.window_round (packed graph) width max_cycle_length
      (wrap (thread * max_cycle_length)) event depth = result) :
    WindowStep graph start_events width max_cycle_length thread (.searching event depth) arrays
      ⟨some (.searching event result.1), result.2.1, result.2.2⟩ := by
  obtain ⟨depth, rfl⟩ : ∃ d, depth = d + 2 := ⟨depth - 2, by omega⟩
  have hdepth := h.depth_lt
  obtain ⟨mine, -, hroot, hopen⟩ := h
  have ht : thread < start_events.length := (List.getElem?_eq_some_iff.mp mine).1
  have hframes : arrays.open_edges graph (thread * max_cycle_length + 1) (depth + 2 - 1) =
      edges_from graph (arrays.paths (thread * max_cycle_length + (depth + 1)),
        arrays.cursors (thread * max_cycle_length + (depth + 1))) ::
        arrays.open_edges graph (thread * max_cycle_length + 1) depth := by
    have hslot : thread * max_cycle_length + (depth + 1) = thread * max_cycle_length + 1 + depth := by
      omega
    rw [hslot]
    rfl
  rw [hframes] at hopen
  have hv : arrays.paths (thread * max_cycle_length + (depth + 1)) < graph.vertex_count :=
    List.mem_range.mp (hopen.inside _ List.mem_cons_self)
  have hrounds : WindowRounds graph max_cycle_length thread arrays _ _ result :=
    hresult ▸ window_round_rounds hg hfit ht (by omega) hroot hv
  have hmoved := hopen.moves (window_rows_inside hg width event)
    (Nat.le_of_eq List.length_range) (window_rows_most width event)
  refine .goes ⟨mine, hrounds.depth, hrounds.root.trans hroot, ?_⟩ ?_ ?_ ?_ hrounds.own_slots
  · rw [hrounds.frames]
    exact hmoved.open_frames
  · exact fun other ho slot hs => hrounds.apart slot fun hin => ho (in_slots_unique hin hs)
  · rw [window_pending, window_pending, hrounds.frames, hrounds.counts, hframes]
    exact hmoved.pending
  · rw [window_left, window_left, hrounds.frames, hframes]
    exact work_apply_lt hmoved.uses

omit hg in
-- A search starts with the first vertex above the root.
theorem window_start_frame (graph : GraphView)
    (hfit : start_events.length * max_cycle_length < 2 ^ 64) (hmax : 2 ≤ max_cycle_length)
    {event : CudaStartEvent} (mine : start_events[thread]? = some event) (arrays : Stacks) :
    (arrays.start (packed graph) (thread * max_cycle_length) event).open_edges graph
        (thread * max_cycle_length + 1) 1 = [(event.first_vertex, graph.outgoing_row event.first_vertex)] ∧
      (arrays.start (packed graph) (thread * max_cycle_length) event).paths
        (thread * max_cycle_length) = event.root ∧
      ∀ other, other ≠ thread → Stacks.Same max_cycle_length other arrays
        (arrays.start (packed graph) (thread * max_cycle_length) event) := by
  have ht : thread < start_events.length := (List.getElem?_eq_some_iff.mp mine).1
  have hfirst := wrap_slot hfit ht (show 1 < max_cycle_length by omega)
  rw [wrap_base hfit ht] at hfirst
  have hin : InSlots max_cycle_length thread (thread * max_cycle_length) :=
    in_slots_add (k := 0) (by omega)
  have hin' : InSlots max_cycle_length thread (thread * max_cycle_length + 1) :=
    in_slots_add (by omega)
  unfold Stacks.start
  rw [hfirst]
  refine ⟨congrArg (List.map (edges_from graph)) (frames_root _ _ _), ?_, fun other ho => ?_⟩
  · have hne : thread * max_cycle_length ≠ thread * max_cycle_length + 1 := by omega
    refine (Function.update_of_ne hne _ _).trans ?_
    exact Function.update_self _ _ _
  · intro slot hs
    have hne : slot ≠ thread * max_cycle_length := fun he => ho (in_slots_unique hin (he ▸ hs))
    obtain ⟨hpath, hcursor⟩ := @enter_same max_cycle_length thread _ (packed graph) _
      event.first_vertex other ho hin' slot hs
    exact ⟨hpath.trans (Function.update_of_ne hne _ _), hcursor⟩

variable (hin : ∀ event ∈ start_events, event.InGraph graph)
  (hfit : start_events.length * max_cycle_length < 2 ^ 64) (hmax : 2 ≤ max_cycle_length)

include hin hfit hmax

theorem window_enter {event : CudaStartEvent} (mine : start_events[thread]? = some event)
    (arrays : Stacks) :
    WindowStep graph start_events width max_cycle_length thread .asking arrays
      ⟨some (.searching event 2),
        arrays.start (packed graph) (thread * max_cycle_length) event,
        [.accessed (thread * max_cycle_length), .accessed (thread * max_cycle_length + 1)]⟩ := by
  obtain ⟨hframes, hroot, hapart⟩ := window_start_frame graph hfit hmax mine arrays
  have hv := hin event (List.mem_of_getElem? mine)
  obtain ⟨hopen, hpending⟩ := open_search_start (window_rows_inside hg width event)
    (Nat.le_of_eq List.length_range) event.root (List.mem_range.mpr hv.first_lt) hmax
  refine .goes ⟨mine, by omega, hroot, hframes ▸ hopen⟩ hapart ?_ ?_ ?_
  · rw [window_pending, mine, Option.elim_some, window_pending]
    change _ = [] ++ frames_pending _ _ _ _ (Stacks.open_edges _ graph _ 1)
    rw [hframes]
    exact hpending.symm
  · rw [window_left, window_left]
    change work _ _ _ (Stacks.open_edges _ graph _ 1) < _
    rw [hframes]
    exact Nat.lt_succ_of_le (work_single_le
      (window_rows_most width event _ (List.mem_range.mpr hv.first_lt)))
  · intro accessed he
    rcases List.mem_pair.mp he with rfl | rfl
    · exact own_base (by omega)
    · exact own_accessed (in_slots_add (by omega))

theorem window_step {register : WindowRegister} {arrays : Stacks}
    (hgood : WindowGood graph start_events width max_cycle_length thread register arrays) :
    WindowStep graph start_events width max_cycle_length thread register arrays
      (count_time_window_start_events_work (packed graph) start_events width max_cycle_length thread
        register arrays) := by
  cases register with
  | asking =>
      unfold count_time_window_start_events_work
      dsimp only
      cases mine : start_events[thread]? with
      | none => exact .ends (by rw [window_pending, mine]; rfl)
      | some event =>
          have ht : thread < start_events.length := (List.getElem?_eq_some_iff.mp mine).1
          have hbase := wrap_base hfit ht
          have hfirst := wrap_slot hfit ht (show 1 < max_cycle_length by omega)
          rw [hbase] at hfirst ⊢
          dsimp only
          rw [hfirst]
          exact window_enter hg hin hfit hmax mine arrays
  | searching event depth =>
      have hdepth : 1 ≤ depth := WindowSearching.depth_pos hgood
      unfold count_time_window_start_events_work
      dsimp only
      split_ifs with hd
      · exact window_round_step hg hfit hd hgood rfl
      · obtain rfl : depth = 1 := by omega
        exact .ends rfl

theorem window_items :
    Items (count_time_window_start_events_work (packed graph) start_events width max_cycle_length)
      threads (Stacks.Same max_cycle_length) (WindowGood graph start_events width max_cycle_length)
      Event.bin (OwnSlots max_cycle_length)
      (window_pending graph start_events width max_cycle_length)
      (window_left graph max_cycle_length) := by
  refine items_of_steps (fun thread arrays slot _ => ⟨rfl, rfl⟩) ?_
    fun thread _ register arrays hgood => window_step hg hin hfit hmax hgood
  intro thread _ register arrays arrays' hsame hgood
  cases register with
  | asking => exact ⟨trivial, rfl, rfl⟩
  | searching event depth =>
      have hframes : arrays'.open_edges graph (thread * max_cycle_length + 1) (depth - 1) =
          arrays.open_edges graph (thread * max_cycle_length + 1) (depth - 1) :=
        hsame.open_edges (WindowSearching.depth_lt hgood)
      have hbase : InSlots max_cycle_length thread (thread * max_cycle_length) :=
        in_slots_add (k := 0) (by omega)
      refine ⟨⟨hgood.mine, hgood.depth_pos, (hsame _ hbase).1.trans hgood.path_root, ?_⟩, ?_, ?_⟩
      · rw [hframes]
        exact hgood.open_search
      · rw [window_pending, window_pending, hframes]
      · rw [window_left, window_left, hframes]

end Rows

end Step

end CycleEnum.Cuda
