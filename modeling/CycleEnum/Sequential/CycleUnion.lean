import CycleEnum.Core.Transpose
import CycleEnum.Enumeration.BreadthFirst
import CycleEnum.Sequential.TemporalClosings

namespace CycleEnum.Sequential

open Enumeration

structure CycleUnionRequest where
  root : Nat
  first_vertex : Nat
  start_timestamp : Int
  window_width : Int
deriving DecidableEq, Repr

structure CycleUnion where
  included : List Bool
  included_count : Nat
  counted : included_count = included.count true

namespace CycleUnion

def initial (vertex_count : Nat) : CycleUnion where
  included := List.replicate vertex_count false
  included_count := 0
  counted := by simp [List.count_replicate]

def validate_vertex (cycle_union : CycleUnion) (vertex : Nat) : Except Error Unit :=
  if vertex ≥ cycle_union.included.length then
    .error (.out_of_range "cycle-union vertex is out of range")
  else .ok ()

theorem count_set {included : List Bool} {vertex : Nat} (h : included[vertex]? = some false) :
    included.count true + 1 = (included.set vertex true).count true := by
  obtain ⟨hv, he⟩ := List.getElem?_eq_some_iff.mp h
  rw [List.count_set hv, he]
  simp

def include_ (cycle_union : CycleUnion) (vertex : Nat) : Except Error CycleUnion := do
  cycle_union.validate_vertex vertex
  if h : cycle_union.included[vertex]? = some false then
    return ⟨cycle_union.included.set vertex true, cycle_union.included_count + 1,
      cycle_union.counted ▸ count_set h⟩
  return cycle_union

def contains (cycle_union : CycleUnion) (vertex : Nat) : Except Error Bool := do
  cycle_union.validate_vertex vertex
  return cycle_union.included.getD vertex false

def included_vertices (cycle_union : CycleUnion) : List Nat :=
  ((List.range cycle_union.included.length).filter fun vertex =>
    cycle_union.included.getD vertex false).map (· % 2 ^ 32)

end CycleUnion

def validate_request (graph : GraphView) (request : CycleUnionRequest) : Except Error Unit := do
  let _ ← checked_window_end request.start_timestamp request.window_width
  if request.root ≥ graph.vertex_count then
    throw (.out_of_range "cycle-union root vertex is out of range")
  if request.first_vertex ≥ graph.vertex_count then
    throw (.out_of_range "cycle-union first vertex is out of range")

def edge_has_event_after_start (graph : GraphView) (edge : AdjacencyEntry)
    (start_timestamp window_end : Int) : Except Error Bool := do
  let range ← timestamps_after graph.timestamps edge.timestamp_begin edge.timestamp_end
    start_timestamp window_end
  return !range.empty

-- The loop over the edges of the vertex that has left the queue: the flags of the
-- vertices found, and the queue.
def search_edge (graph : GraphView) (start_timestamp window_end : Int) (state : Flags × List Nat)
    (edge : AdjacencyEntry) : Except Error (Flags × List Nat) := do
  if !(← edge_has_event_after_start graph edge start_timestamp window_end) then
    return state
  let next := edge.vertex
  if state.1 next then
    return state
  return (state.1.set next true, state.2 ++ [next])

def search_row (graph : GraphView) (start_timestamp window_end : Int) (row : List AdjacencyEntry)
    (state : Flags × List Nat) : Except Error (Flags × List Nat) :=
  row.foldlM (search_edge graph start_timestamp window_end) state

def search_queue (graph : GraphView) (row_of : Nat → List AdjacencyEntry)
    (start_timestamp window_end : Int) : Nat → Flags × List Nat → Except Error Flags
  | _, (reachable, []) => .ok reachable
  | 0, (_, _ :: _) => .error .unfinished
  | fuel + 1, (reachable, current :: queue) => do
      let state ← search_row graph start_timestamp window_end (row_of current) (reachable, queue)
      search_queue graph row_of start_timestamp window_end fuel state

def forward_reachable (graph : GraphView) (first_vertex : Nat) (start_timestamp window_end : Int) :
    Except Error Flags :=
  search_queue graph graph.outgoing_row start_timestamp window_end graph.vertex_count
    (Flags.none.set first_vertex true, [first_vertex])

def reverse_reachable_to_root (graph : GraphView) (root : Nat) (start_timestamp window_end : Int) :
    Except Error Flags :=
  search_queue graph graph.incoming_row start_timestamp window_end graph.vertex_count
    (Flags.none.set root true, [root])

def compute_temporal_cycle_union (graph : GraphView) (request : CycleUnionRequest) :
    Except Error CycleUnion := do
  validate_request graph request
  let window_end ← checked_window_end request.start_timestamp request.window_width
  let forward ← forward_reachable graph request.first_vertex request.start_timestamp window_end
  let reverse ← reverse_reachable_to_root graph request.root request.start_timestamp window_end
  (List.range graph.vertex_count).foldlM (fun (cycle_union : CycleUnion) vertex =>
    if forward vertex && reverse vertex then cycle_union.include_ (vertex % 2 ^ 32)
    else pure cycle_union) (CycleUnion.initial graph.vertex_count)

-- What the searches of both directions rely on. The ends of an edge are 32-bit ids.
structure Mirrored (graph : GraphView) : Prop where
  outgoing_start : graph.outgoing_offsets.getD 0 0 = 0
  incoming_start : graph.incoming_offsets.getD 0 0 = 0
  slices : ∀ v, ∀ edge ∈ graph.outgoing_entries v,
    Slice graph.timestamps edge.timestamp_begin edge.timestamp_end
  bounded : ∀ v, ∀ edge ∈ graph.outgoing_entries v,
    v < graph.vertex_count ∧ edge.vertex < graph.vertex_count
  ids : ∀ v, ∀ edge ∈ graph.outgoing_entries v, v < 2 ^ 32 ∧ edge.vertex < 2 ^ 32
  incoming : ∀ u v entry, entry.vertex = u →
    (entry ∈ graph.incoming_entries v ↔ { entry with vertex := v } ∈ graph.outgoing_entries u)

-- Without a vertex of the last id every row is read to its end.
structure Linked (graph : GraphView) : Prop extends Mirrored graph where
  counted : graph.vertex_count < 2 ^ 32

theorem mirrored_of_build {graph : TemporalGraph} {view : GraphView}
    (hends : ∀ edge ∈ graph.edges,
      edge.source < graph.vertex_count ∧ edge.target < graph.vertex_count)
    (hids : ∀ edge ∈ graph.edges, edge.source < 2 ^ 32 ∧ edge.target < 2 ^ 32)
    (hsorted : ∀ edge ∈ graph.edges, edge.timestamps.Pairwise (· ≤ ·))
    (h : build_graph_view graph = .ok view) : Mirrored view where
  outgoing_start := (faithful_of_build hends h).outgoing.offsets.getD_start
  incoming_start := (faithful_of_build hends h).incoming.offsets.getD_start
  slices := slices_of_build hsorted h
  bounded := bounded_of_build hends h
  ids v edge he := by
    obtain ⟨i, found, hfound, rfl, rfl⟩ := (faithful_of_build hends h).outgoing.mem_row.mp he
    exact hids found (List.mem_of_getElem? hfound)
  incoming _ _ _ := (faithful_of_build hends h).mem_incoming_row

variable {graph : GraphView} {start_timestamp window_end : Int}

-- Whether an edge has an event after the start and within the window.
def has_event (graph : GraphView) (start_timestamp window_end : Int) (edge : AdjacencyEntry) : Bool :=
  (edge_events edge).any fun offset =>
    in_window .AfterStart start_timestamp window_end (timestamp_at graph.timestamps offset)

theorem edge_has_event_after_start_eq {edge : AdjacencyEntry}
    (h : Slice graph.timestamps edge.timestamp_begin edge.timestamp_end) :
    edge_has_event_after_start graph edge start_timestamp window_end =
      .ok (has_event graph start_timestamp window_end edge) := by
  obtain ⟨range, hr, ho⟩ := timestamps_after_spec h start_timestamp window_end
  have hempty : (!range.empty) = has_event graph start_timestamp window_end edge := by
    rw [Bool.eq_iff_iff, Bool.not_eq_true', ← Bool.not_eq_true, range.empty_iff, ho,
      List.filter_eq_nil_iff, has_event, List.any_eq_true]
    push Not
    rfl
  rw [edge_has_event_after_start, hr, ← hempty]
  rfl

-- The neighbours in a row along edges with such an event.
def event_neighbours (graph : GraphView) (start_timestamp window_end : Int)
    (row : List AdjacencyEntry) : List Nat :=
  (row.filter (has_event graph start_timestamp window_end)).map (·.vertex)

theorem search_edge_eq {edge : AdjacencyEntry}
    (h : Slice graph.timestamps edge.timestamp_begin edge.timestamp_end) (state : Flags × List Nat) :
    search_edge graph start_timestamp window_end state edge =
      .ok (if has_event graph start_timestamp window_end edge then find state edge.vertex
        else state) := by
  rw [search_edge, edge_has_event_after_start_eq h, find]
  cases has_event graph start_timestamp window_end edge with
  | false => rfl
  | true =>
      change (if state.1 edge.vertex = true then Except.ok state
        else Except.ok (state.1.set edge.vertex true, state.2 ++ [edge.vertex])) = _
      rw [if_pos rfl]
      split_ifs
      · rfl
      · rfl

theorem search_row_eq {row : List AdjacencyEntry}
    (h : ∀ edge ∈ row, Slice graph.timestamps edge.timestamp_begin edge.timestamp_end)
    (state : Flags × List Nat) :
    search_row graph start_timestamp window_end row state =
      .ok ((event_neighbours graph start_timestamp window_end row).foldl find state) := by
  induction row generalizing state with
  | nil => rfl
  | cons edge row ih =>
      have hrest := ih fun edge he => h edge (List.mem_cons_of_mem _ he)
      unfold search_row at hrest ⊢
      rw [List.foldlM_cons, search_edge_eq (h edge List.mem_cons_self), event_neighbours,
        List.filter_cons]
      cases has_event graph start_timestamp window_end edge with
      | false => exact hrest state
      | true => exact hrest (find state edge.vertex)

-- The loops are breadth-first searches.
theorem search_queue_eq {row_of : Nat → List AdjacencyEntry}
    (h : ∀ v, ∀ edge ∈ row_of v, Slice graph.timestamps edge.timestamp_begin edge.timestamp_end)
    (fuel : Nat) (state : Flags × List Nat) {marks : Flags}
    (hmarks : breadth_first (fun v => event_neighbours graph start_timestamp window_end (row_of v))
      fuel state = some marks) :
    search_queue graph row_of start_timestamp window_end fuel state = .ok marks := by
  induction fuel generalizing state with
  | zero =>
      obtain ⟨reachable, queue⟩ := state
      cases queue with
      | nil => exact congrArg Except.ok (Option.some.inj hmarks)
      | cons current queue => cases hmarks
  | succ fuel ih =>
      obtain ⟨reachable, queue⟩ := state
      cases queue with
      | nil => exact congrArg Except.ok (Option.some.inj hmarks)
      | cons current queue =>
          rw [search_queue, search_row_eq (h current)]
          exact ih _ hmarks

-- A step along an edge with such an event.
def EventStep (graph : GraphView) (start_timestamp window_end : Int) (u v : Nat) : Prop :=
  ∃ edge ∈ graph.outgoing_entries u, edge.vertex = v ∧
    has_event graph start_timestamp window_end edge = true

-- A walk along such edges, in any order of the events.
def EventWalk (graph : GraphView) (start_timestamp window_end : Int) : Nat → Nat → Prop :=
  Relation.ReflTransGen (EventStep graph start_timestamp window_end)

theorem mem_event_neighbours {row : List AdjacencyEntry} {next : Nat} :
    next ∈ event_neighbours graph start_timestamp window_end row ↔ ∃ edge ∈ row, edge.vertex = next ∧
      has_event graph start_timestamp window_end edge = true := by
  simp only [event_neighbours, List.mem_map, List.mem_filter]
  constructor
  · rintro ⟨edge, ⟨he, hevent⟩, rfl⟩
    exact ⟨edge, he, rfl, hevent⟩
  · rintro ⟨edge, he, rfl, hevent⟩
    exact ⟨edge, ⟨he, hevent⟩, rfl⟩

-- What the searches see of these walks: the rows of the last id are read as empty.
def ForwardWalk (graph : GraphView) (start_timestamp window_end : Int) : Nat → Nat → Prop :=
  Relation.ReflTransGen fun u v => u + 1 ≠ 2 ^ 32 ∧ EventStep graph start_timestamp window_end u v

def ReverseWalk (graph : GraphView) (start_timestamp window_end : Int) : Nat → Nat → Prop :=
  Relation.ReflTransGen fun u v => v + 1 ≠ 2 ^ 32 ∧ EventStep graph start_timestamp window_end u v

section Mirrored

variable (hg : Mirrored graph)

include hg

theorem Mirrored.outgoing_step {u v : Nat} :
    v ∈ event_neighbours graph start_timestamp window_end (graph.outgoing_row u) ↔
      u + 1 ≠ 2 ^ 32 ∧ EventStep graph start_timestamp window_end u v := by
  rw [mem_event_neighbours]
  constructor
  · rintro ⟨edge, he, hv, hevent⟩
    obtain ⟨hid, hedge⟩ := (mem_narrow_row_iff hg.outgoing_start).mp he
    exact ⟨hid, edge, hedge, hv, hevent⟩
  · rintro ⟨hid, edge, hedge, hv, hevent⟩
    exact ⟨edge, (mem_narrow_row_iff hg.outgoing_start).mpr ⟨hid, hedge⟩, hv, hevent⟩

theorem Mirrored.incoming_step {u v : Nat} :
    u ∈ event_neighbours graph start_timestamp window_end (graph.incoming_row v) ↔
      v + 1 ≠ 2 ^ 32 ∧ EventStep graph start_timestamp window_end u v := by
  rw [mem_event_neighbours]
  constructor
  · rintro ⟨entry, he, hu, hevent⟩
    obtain ⟨hid, hentry⟩ := (mem_narrow_row_iff hg.incoming_start).mp he
    exact ⟨hid, { entry with vertex := v }, (hg.incoming u v entry hu).mp hentry, rfl, hevent⟩
  · rintro ⟨hid, edge, hedge, rfl, hevent⟩
    exact ⟨{ edge with vertex := u }, (mem_narrow_row_iff hg.incoming_start).mpr
      ⟨hid, (hg.incoming u edge.vertex _ rfl).mpr hedge⟩, rfl, hevent⟩

theorem Mirrored.outgoing_slices (v : Nat) : ∀ edge ∈ graph.outgoing_row v,
    Slice graph.timestamps edge.timestamp_begin edge.timestamp_end :=
  fun edge he => hg.slices v edge (mem_stored_row hg.outgoing_start he)

theorem Mirrored.incoming_slices (v : Nat) : ∀ edge ∈ graph.incoming_row v,
    Slice graph.timestamps edge.timestamp_begin edge.timestamp_end := by
  intro edge he
  have hout := (hg.incoming edge.vertex v edge rfl).mp (mem_stored_row hg.incoming_start he)
  exact hg.slices edge.vertex { edge with vertex := v } hout

theorem Mirrored.step_bounded {u v : Nat} (h : EventStep graph start_timestamp window_end u v) :
    u < graph.vertex_count ∧ v < graph.vertex_count := by
  obtain ⟨edge, he, rfl, -⟩ := h
  exact hg.bounded u edge he

theorem forward_reachable_eq (start_timestamp window_end : Int) {first_vertex : Nat}
    (hf : first_vertex < graph.vertex_count) :
    ∃ forward, forward_reachable graph first_vertex start_timestamp window_end = .ok forward ∧
      ∀ v, forward v = true ↔ ForwardWalk graph start_timestamp window_end first_vertex v := by
  have hverts : ∀ v, ∀ next ∈ event_neighbours graph start_timestamp window_end
      (graph.outgoing_row v), next ∈ List.range graph.vertex_count :=
    fun v next hnext => List.mem_range.mpr (hg.step_bounded (hg.outgoing_step.mp hnext).2).2
  obtain ⟨marks, hmarks, hexact⟩ := breadth_first_exact hverts (List.mem_range.mpr hf)
    (Nat.le_of_eq List.length_range)
  refine ⟨marks, search_queue_eq hg.outgoing_slices _ _ hmarks, fun v => (hexact v).trans ?_⟩
  have hstep : (fun u v => v ∈ event_neighbours graph start_timestamp window_end
      (graph.outgoing_row u)) = fun u v =>
        u + 1 ≠ 2 ^ 32 ∧ EventStep graph start_timestamp window_end u v :=
    funext fun u => funext fun v => propext hg.outgoing_step
  rw [Reachable, hstep]
  rfl

theorem reverse_reachable_to_root_eq (start_timestamp window_end : Int) {root : Nat}
    (hr : root < graph.vertex_count) :
    ∃ reverse, reverse_reachable_to_root graph root start_timestamp window_end = .ok reverse ∧
      ∀ v, reverse v = true ↔ ReverseWalk graph start_timestamp window_end v root := by
  have hverts : ∀ v, ∀ next ∈ event_neighbours graph start_timestamp window_end
      (graph.incoming_row v), next ∈ List.range graph.vertex_count :=
    fun v next hnext => List.mem_range.mpr (hg.step_bounded (hg.incoming_step.mp hnext).2).1
  obtain ⟨marks, hmarks, hexact⟩ := breadth_first_exact hverts (List.mem_range.mpr hr)
    (Nat.le_of_eq List.length_range)
  refine ⟨marks, search_queue_eq hg.incoming_slices _ _ hmarks, fun v => (hexact v).trans ?_⟩
  have hstep : (fun v u => u ∈ event_neighbours graph start_timestamp window_end
      (graph.incoming_row v)) = Function.swap fun u v =>
        v + 1 ≠ 2 ^ 32 ∧ EventStep graph start_timestamp window_end u v :=
    funext fun v => funext fun u => propext hg.incoming_step
  rw [Reachable, hstep]
  exact Relation.reflTransGen_swap

-- A vertex from which a walk leads on has a 32-bit id.
theorem Mirrored.reverse_walk_id {root v : Nat} (hroot : root < 2 ^ 32)
    (h : ReverseWalk graph start_timestamp window_end v root) : v < 2 ^ 32 := by
  rcases Relation.ReflTransGen.cases_head h with rfl | ⟨next, ⟨-, edge, he, -⟩, -⟩
  · exact hroot
  · exact (hg.ids v edge he).1

end Mirrored

-- Below 2^32 vertices the searches see every step.
theorem Linked.seen (hg : Linked graph) {u v : Nat}
    (h : EventStep graph start_timestamp window_end u v) : u + 1 ≠ 2 ^ 32 ∧ v + 1 ≠ 2 ^ 32 := by
  have hbounds := hg.step_bounded h
  have hcount := hg.counted
  omega

theorem Linked.forward_walk (hg : Linked graph) :
    ForwardWalk graph start_timestamp window_end = EventWalk graph start_timestamp window_end :=
  congrArg Relation.ReflTransGen (funext fun _ => funext fun _ => propext
    ⟨And.right, fun h => ⟨(hg.seen h).1, h⟩⟩)

theorem Linked.reverse_walk (hg : Linked graph) :
    ReverseWalk graph start_timestamp window_end = EventWalk graph start_timestamp window_end :=
  congrArg Relation.ReflTransGen (funext fun _ => funext fun _ => propext
    ⟨And.right, fun h => ⟨(hg.seen h).2, h⟩⟩)

namespace CycleUnion

theorem include_eq (cycle_union : CycleUnion) {vertex : Nat} (h : vertex < cycle_union.included.length) :
    ∃ next, cycle_union.include_ vertex = .ok next ∧
      next.included.length = cycle_union.included.length ∧
      ∀ v, next.included[v]? = some true ↔ cycle_union.included[v]? = some true ∨ v = vertex := by
  have hvalid : cycle_union.validate_vertex vertex = .ok () := by
    rw [validate_vertex, if_neg (by omega)]
  unfold include_
  rw [hvalid]
  by_cases hnew : cycle_union.included[vertex]? = some false
  · refine ⟨_, dif_pos hnew, List.length_set, fun v => ?_⟩
    dsimp only
    by_cases hv : v = vertex
    · simp [hv, h]
    · rw [List.getElem?_set_ne (Ne.symm hv)]
      simp [hv]
  · refine ⟨_, dif_neg hnew, rfl, fun v => ⟨Or.inl, fun hv => hv.elim id fun hv => ?_⟩⟩
    rw [hv]
    rw [List.getElem?_eq_getElem h] at hnew ⊢
    simpa using hnew

theorem foldlM_include (keep : Nat → Bool) (vertices : List Nat) (cycle_union : CycleUnion)
    (h : ∀ v ∈ vertices, v < cycle_union.included.length)
    (hids : ∀ v, keep v = true → v < 2 ^ 32) :
    ∃ last, vertices.foldlM (fun (cycle_union : CycleUnion) vertex =>
        if keep vertex then cycle_union.include_ (vertex % 2 ^ 32) else pure cycle_union) cycle_union =
          .ok last ∧
      last.included.length = cycle_union.included.length ∧
      ∀ v, last.included[v]? = some true ↔
        cycle_union.included[v]? = some true ∨ v ∈ vertices ∧ keep v = true := by
  induction vertices generalizing cycle_union with
  | nil => exact ⟨cycle_union, rfl, rfl, by simp⟩
  | cons vertex vertices ih =>
      rw [List.foldlM_cons]
      cases hk : keep vertex with
      | false =>
          obtain ⟨last, hlast, hlen, hmem⟩ := ih cycle_union fun v hv => h v (List.mem_cons_of_mem _ hv)
          refine ⟨last, hlast, hlen, fun v => (hmem v).trans ?_⟩
          by_cases hv : v = vertex
          · simp [hv, hk]
          · simp [hv]
      | true =>
          obtain ⟨next, hnext, hlen, hmem⟩ := cycle_union.include_eq (h vertex List.mem_cons_self)
          obtain ⟨last, hlast, hlen', hmem'⟩ := ih next fun v hv => by
            rw [hlen]
            exact h v (List.mem_cons_of_mem _ hv)
          refine ⟨last, ?_, hlen'.trans hlen, fun v => ?_⟩
          · rw [if_pos rfl, Nat.mod_eq_of_lt (hids vertex hk), hnext]
            exact hlast
          · rw [hmem', hmem]
            by_cases hv : v = vertex
            · simp [hv, hk]
            · simp [hv]

theorem included_count_eq_zero (cycle_union : CycleUnion) :
    cycle_union.included_count = 0 ↔ ∀ v : Nat, cycle_union.included[v]? ≠ some true := by
  rw [cycle_union.counted, List.count_eq_zero, List.mem_iff_getElem?]
  push Not
  rfl

end CycleUnion

-- The union holds the vertices that both searches find.
theorem compute_temporal_cycle_union_reads (hg : Mirrored graph) (request : CycleUnionRequest)
    (hr : request.root < graph.vertex_count) (hf : request.first_vertex < graph.vertex_count)
    (hid : request.root < 2 ^ 32) (h0 : 0 ≤ request.window_width)
    (hfit : request.start_timestamp ≤ MAX_TIMESTAMP - request.window_width) :
    ∃ cycle_union, compute_temporal_cycle_union graph request = .ok cycle_union ∧
      cycle_union.included.length = graph.vertex_count ∧
      ∀ v : Nat, cycle_union.included[v]? = some true ↔ v < graph.vertex_count ∧
        ForwardWalk graph request.start_timestamp (request.start_timestamp + request.window_width)
          request.first_vertex v ∧
        ReverseWalk graph request.start_timestamp (request.start_timestamp + request.window_width)
          v request.root := by
  have hwindow := checked_window_end_ok h0 hfit
  have hvalid : validate_request graph request = .ok () := by
    rw [validate_request, hwindow]
    change (if request.root ≥ graph.vertex_count then _ else _) = _
    rw [if_neg (by omega)]
    rw [if_neg (by omega)]
    rfl
  obtain ⟨forward, hforward, hwalk⟩ := forward_reachable_eq hg request.start_timestamp
    (request.start_timestamp + request.window_width) hf
  obtain ⟨reverse, hreverse, hwalk'⟩ := reverse_reachable_to_root_eq hg request.start_timestamp
    (request.start_timestamp + request.window_width) hr
  have hlen : (CycleUnion.initial graph.vertex_count).included.length = graph.vertex_count :=
    List.length_replicate
  obtain ⟨last, hlast, hsize, hmem⟩ := CycleUnion.foldlM_include
    (fun vertex => forward vertex && reverse vertex) (List.range graph.vertex_count)
    (CycleUnion.initial graph.vertex_count) (fun v hv => by rw [hlen]; exact List.mem_range.mp hv)
    fun v hkeep => hg.reverse_walk_id hid ((hwalk' v).mp (Bool.and_eq_true_iff.mp hkeep).2)
  refine ⟨last, ?_, hsize.trans hlen, fun v => (hmem v).trans ?_⟩
  · rw [compute_temporal_cycle_union, ok_bind hvalid, ok_bind hwindow, ok_bind hforward,
      ok_bind hreverse]
    exact hlast
  · have hnone : (CycleUnion.initial graph.vertex_count).included[v]? ≠ some true := by
      simp [CycleUnion.initial, List.getElem?_replicate]
    simp only [hnone, false_or, List.mem_range, Bool.and_eq_true, hwalk, hwalk']

-- Below 2^32 vertices these are the vertices on the walks from the first vertex to the root.
theorem compute_temporal_cycle_union_eq (hg : Linked graph) (request : CycleUnionRequest)
    (hr : request.root < graph.vertex_count) (hf : request.first_vertex < graph.vertex_count)
    (h0 : 0 ≤ request.window_width)
    (hfit : request.start_timestamp ≤ MAX_TIMESTAMP - request.window_width) :
    ∃ cycle_union, compute_temporal_cycle_union graph request = .ok cycle_union ∧
      cycle_union.included.length = graph.vertex_count ∧
      ∀ v : Nat, cycle_union.included[v]? = some true ↔ v < graph.vertex_count ∧
        EventWalk graph request.start_timestamp (request.start_timestamp + request.window_width)
          request.first_vertex v ∧
        EventWalk graph request.start_timestamp (request.start_timestamp + request.window_width)
          v request.root := by
  have hreads := compute_temporal_cycle_union_reads hg.toMirrored request hr hf (hr.trans hg.counted)
    h0 hfit
  rwa [hg.forward_walk, hg.reverse_walk] at hreads

-- It is empty exactly when no walk leads from the first vertex to the root.
theorem included_count_eq_zero_iff {root first_vertex : Nat} {cycle_union : CycleUnion}
    (hf : first_vertex < graph.vertex_count)
    (hmem : ∀ v : Nat, cycle_union.included[v]? = some true ↔ v < graph.vertex_count ∧
      EventWalk graph start_timestamp window_end first_vertex v ∧
      EventWalk graph start_timestamp window_end v root) :
    cycle_union.included_count = 0 ↔
      ¬EventWalk graph start_timestamp window_end first_vertex root := by
  rw [CycleUnion.included_count_eq_zero]
  constructor
  · intro h hwalk
    exact h first_vertex ((hmem _).mpr ⟨hf, .refl, hwalk⟩)
  · intro h v hv
    obtain ⟨-, hfirst, hlast⟩ := (hmem v).mp hv
    exact h (hfirst.trans hlast)

-- A walk along later and later events is such a walk.
theorem EventWalk.of_leads_back (hstart : graph.outgoing_offsets.getD 0 0 = 0)
    {root v : Nat} {previous : Int} (hle : start_timestamp ≤ previous)
    (h : LeadsBack (event_graph graph) window_end root v previous) :
    EventWalk graph start_timestamp window_end v root := by
  have hstep : ∀ (v next : Nat) (previous : Int) (events : List Nat) (event : Nat),
      start_timestamp ≤ previous → (next, events) ∈ (event_graph graph).arcs v →
      event ∈ (event_graph graph).later window_end previous events →
      EventStep graph start_timestamp window_end v next ∧
        start_timestamp ≤ (event_graph graph).time event := by
    intro v next previous events event hle harc hlater
    obtain ⟨edge, he, heq⟩ := List.mem_map.mp harc
    obtain ⟨rfl, rfl⟩ := Prod.mk.inj heq
    obtain ⟨hevent, hafter, hbefore⟩ := EventGraph.mem_later.mp hlater
    refine ⟨⟨edge, mem_stored_row hstart he, rfl, List.any_eq_true.mpr ⟨event, hevent, ?_⟩⟩, by omega⟩
    rw [event_graph_time] at hafter hbefore
    simp only [in_window, decide_eq_true_eq]
    omega
  induction h with
  | close harc hlater => exact .single (hstep _ _ _ _ _ hle harc hlater).1
  | step harc hlater _ ih =>
      obtain ⟨hone, hlater⟩ := hstep _ _ _ _ _ hle harc hlater
      exact .head hone (ih hlater)

end CycleEnum.Sequential
