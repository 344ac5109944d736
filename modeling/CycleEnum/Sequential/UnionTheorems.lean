import CycleEnum.Sequential.CycleUnion
import CycleEnum.Sequential.TemporalTheorems

namespace CycleEnum.Sequential

variable {graph : GraphView} {width start_timestamp window_end : Int}

-- The first edge of a cycle and the timestamp of its event.
structure BeginsWith (graph : GraphView) (root first_vertex : Nat) (start_timestamp : Int)
    (vertices events : List Nat) : Prop where
  root : vertices.head? = some root
  first_vertex : (vertices.rotate 1).head? = some first_vertex
  start : ∃ event ∈ events.head?, timestamp_at graph.timestamps event = start_timestamp

theorem EventStep.of_is_event {u v offset : Nat} (h : is_event graph u v offset)
    (hafter : start_timestamp < timestamp_at graph.timestamps offset)
    (hbefore : timestamp_at graph.timestamps offset ≤ window_end) :
    EventStep graph start_timestamp window_end u v := by
  obtain ⟨edge, he, rfl, hlow, hhigh⟩ := h
  refine ⟨edge, he, rfl, List.any_eq_true.mpr ⟨offset, ?_, ?_⟩⟩
  · rw [edge_events, List.mem_range'_1]
    omega
  · simp only [in_window, decide_eq_true_eq]
    omega

-- Every vertex of a path back to the root lies on a walk from its first vertex to the root.
theorem walks_along {root v : Nat} {path events : List Nat}
    (hedges : List.Forall₂ (fun edge event => is_event graph edge.1 edge.2 event)
      ((v :: path).zip (path ++ [root])) events)
    (hwindow : ∀ event ∈ events, start_timestamp < timestamp_at graph.timestamps event ∧
      timestamp_at graph.timestamps event ≤ window_end) :
    ∀ u ∈ v :: path, EventWalk graph start_timestamp window_end v u ∧
      EventWalk graph start_timestamp window_end u root := by
  induction path generalizing v events with
  | nil =>
      intro u hu
      obtain rfl := List.mem_singleton.mp hu
      obtain ⟨event, more, hedge, -, rfl⟩ := List.forall₂_cons_left_iff.mp hedges
      obtain ⟨hafter, hbefore⟩ := hwindow event List.mem_cons_self
      exact ⟨.refl, .single (.of_is_event hedge hafter hbefore)⟩
  | cons w path ih =>
      rw [List.cons_append, List.zip_cons_cons] at hedges
      obtain ⟨event, more, hedge, hrest, rfl⟩ := List.forall₂_cons_left_iff.mp hedges
      obtain ⟨hafter, hbefore⟩ := hwindow event List.mem_cons_self
      have hstep : EventStep graph start_timestamp window_end v w :=
        .of_is_event hedge hafter hbefore
      have hwalks := ih hrest fun event he => hwindow event (List.mem_cons_of_mem _ he)
      intro u hu
      rcases List.mem_cons.mp hu with rfl | hu
      · exact ⟨.refl, .head hstep (hwalks w List.mem_cons_self).2⟩
      · exact ⟨.head hstep (hwalks u hu).1, (hwalks u hu).2⟩

-- A cycle lies on walks from its second vertex to its first.
theorem TemporalCycle.walks {root first_vertex : Nat} {vertices events : List Nat}
    (h : TemporalCycle graph width vertices events)
    (hbegin : BeginsWith graph root first_vertex start_timestamp vertices events) :
    ∀ v ∈ vertices,
      EventWalk graph start_timestamp (start_timestamp + width) first_vertex v ∧
        EventWalk graph start_timestamp (start_timestamp + width) v root := by
  obtain ⟨hroot, hfirst, event, hevent, rfl⟩ := hbegin
  cases vertices with
  | nil => cases hroot
  | cons root' path =>
      obtain rfl := Option.some.inj hroot
      cases events with
      | nil => cases hevent
      | cons event' more =>
          obtain rfl := Option.some.inj hevent
          cases path with
          | nil =>
              rw [List.rotate_singleton] at hfirst
              obtain rfl := Option.some.inj hfirst
              intro v hv
              obtain rfl := List.mem_singleton.mp hv
              exact ⟨.refl, .refl⟩
          | cons first path =>
              have hrotate : (root' :: first :: path).rotate 1 = first :: (path ++ [root']) := by simp
              have hedges := h.on_edges
              rw [hrotate] at hfirst hedges
              obtain rfl := Option.some.inj hfirst
              have hwalks := walks_along (List.forall₂_cons.mp hedges).2 h.later_within
              intro v hv
              rcases List.mem_cons.mp hv with rfl | hv
              · exact ⟨(hwalks first List.mem_cons_self).2, .refl⟩
              · exact hwalks v hv

theorem Parsed.mirrored {view : GraphView} (hview : Parsed view) : Mirrored view := by
  obtain ⟨rows, h⟩ := hview
  refine mirrored_of_build (parsed_graph_endpoints rows) (fun edge he => ?_) (parsed_graph_sorted rows) h
  obtain ⟨raw_edge, -, -, hsource, htarget⟩ := mem_parsed_graph he
  rw [hsource, htarget]
  exact ⟨Nat.mod_lt _ (by decide), Nat.mod_lt _ (by decide)⟩

theorem Mirrored.walk_lt (hg : Mirrored graph) {u v : Nat} (hu : u < graph.vertex_count)
    (h : EventWalk graph start_timestamp window_end u v) : v < graph.vertex_count := by
  rcases Relation.ReflTransGen.cases_tail h with rfl | ⟨w, -, hstep⟩
  · exact hu
  · exact (hg.step_bounded hstep).2

-- A search sees no other walks.
theorem ForwardWalk.event_walk {u v : Nat} (h : ForwardWalk graph start_timestamp window_end u v) :
    EventWalk graph start_timestamp window_end u v :=
  Relation.ReflTransGen.mono (fun _ _ => And.right) _ _ h

theorem ReverseWalk.event_walk {u v : Nat} (h : ReverseWalk graph start_timestamp window_end u v) :
    EventWalk graph start_timestamp window_end u v :=
  Relation.ReflTransGen.mono (fun _ _ => And.right) _ _ h

theorem CycleUnion.contains_eq {cycle_union : CycleUnion} {v : Nat}
    (hv : v < cycle_union.included.length) :
    cycle_union.contains v = .ok (cycle_union.included.getD v false) := by
  rw [contains, validate_vertex, if_neg (by omega)]
  rfl

theorem CycleUnion.contains_iff {cycle_union : CycleUnion} {v : Nat} :
    cycle_union.contains v = .ok true ↔ cycle_union.included[v]? = some true := by
  by_cases hv : v < cycle_union.included.length
  · rw [contains_eq hv, List.getD_eq_getElem _ _ hv, List.getElem?_eq_getElem hv, Except.ok.injEq,
      Option.some.injEq]
  · rw [contains, validate_vertex, if_pos (by omega), List.getElem?_eq_none (by omega)]
    simp [bind, Except.bind]

-- The casts to `VertexId` keep the vertices of a union whose ids are such.
theorem CycleUnion.included_vertices_eq {cycle_union : CycleUnion}
    (hids : ∀ v : Nat, cycle_union.included[v]? = some true → v < 2 ^ 32) :
    cycle_union.included_vertices = (List.range cycle_union.included.length).filter fun v =>
      cycle_union.included.getD v false := by
  refine (List.map_congr_left fun v hv => ?_).trans (List.map_id _)
  obtain ⟨hrange, hflag⟩ := List.mem_filter.mp hv
  have hlt := List.mem_range.mp hrange
  refine Nat.mod_eq_of_lt (hids v ?_)
  rw [List.getElem?_eq_getElem hlt, ← hflag, List.getD_eq_getElem _ _ hlt]

theorem CycleUnion.mem_included_vertices {cycle_union : CycleUnion}
    (hids : ∀ v : Nat, cycle_union.included[v]? = some true → v < 2 ^ 32) {v : Nat} :
    v ∈ cycle_union.included_vertices ↔ cycle_union.contains v = .ok true := by
  rw [contains_iff, included_vertices_eq hids, List.mem_filter, List.mem_range]
  by_cases hv : v < cycle_union.included.length
  · rw [List.getD_eq_getElem _ _ hv, List.getElem?_eq_getElem hv, Option.some.injEq]
    exact and_iff_right hv
  · rw [List.getElem?_eq_none (by omega)]
    simp [hv]

theorem CycleUnion.length_included_vertices (cycle_union : CycleUnion) :
    cycle_union.included_vertices.length = cycle_union.included_count := by
  have hflags : (List.range cycle_union.included.length).map
      (fun v => cycle_union.included.getD v false) = cycle_union.included := by
    refine List.ext_getElem (by simp) fun v hv hv' => ?_
    rw [List.getElem_map, List.getElem_range, List.getD_eq_getElem _ _ hv']
  rw [cycle_union.counted, ← hflags, List.count_eq_countP, List.countP_map,
    included_vertices, List.length_map, ← List.countP_eq_length_filter]
  exact List.countP_congr fun v _ => by simp

-- What the union of a request is for: it holds the vertices that lie on a walk from the
-- first vertex to the root, the events of whose edges lie behind the start and within the
-- window, and with them every temporal cycle.
structure IsWindowCore (view : GraphView) (request : CycleUnionRequest) (window_end : Int)
    (cycle_union : CycleUnion) : Prop where
  contains : ∀ v < view.vertex_count, ∃ included, cycle_union.contains v = .ok included ∧
    (included = true ↔
      EventWalk view request.start_timestamp window_end request.first_vertex v ∧
      EventWalk view request.start_timestamp window_end v request.root)
  cycles : ∀ vertices events, TemporalCycle view request.window_width vertices events →
    BeginsWith view request.root request.first_vertex request.start_timestamp vertices events →
    ∀ v ∈ vertices, cycle_union.contains v = .ok true
  empty : cycle_union.included_count = 0 ↔
    ¬EventWalk view request.start_timestamp window_end request.first_vertex request.root
  count : cycle_union.included_count = cycle_union.included_vertices.length
  ascending : cycle_union.included_vertices.Pairwise (· < ·)
  vertices : ∀ v, v ∈ cycle_union.included_vertices ↔ cycle_union.contains v = .ok true

-- What is on such a walk is found by both searches.
def Seen (view : GraphView) (request : CycleUnionRequest) (window_end : Int) : Prop :=
  ∀ v, EventWalk view request.start_timestamp window_end request.first_vertex v →
    EventWalk view request.start_timestamp window_end v request.root →
    ForwardWalk view request.start_timestamp window_end request.first_vertex v ∧
      ReverseWalk view request.start_timestamp window_end v request.root

section Exact

variable {graph : TemporalGraph} {view : GraphView}
  (hends : ∀ edge ∈ graph.edges, edge.source < graph.vertex_count ∧ edge.target < graph.vertex_count)
  (hids : ∀ edge ∈ graph.edges, edge.source < 2 ^ 32 ∧ edge.target < 2 ^ 32)
  (hsorted : ∀ edge ∈ graph.edges, edge.timestamps.Pairwise (· ≤ ·))
  (hbuild : build_graph_view graph = .ok view) {request : CycleUnionRequest} {window_end : Int}
  (hr : request.root < view.vertex_count) (hf : request.first_vertex < view.vertex_count)
  (hid : request.root < 2 ^ 32)
  (hend : checked_window_end request.start_timestamp request.window_width = .ok window_end)

theorem seen_of_lt (hg : Linked view) : Seen view request window_end := by
  intro v hforward hreverse
  rw [hg.forward_walk, hg.reverse_walk]
  exact ⟨hforward, hreverse⟩

include hends hids hsorted hbuild hr hf hid hend

-- Below 2^32 vertices the union is exact, and above where the rows of the last id are not
-- needed to find a vertex of it.
theorem compute_temporal_cycle_union_exact :
    (∃ cycle_union, compute_temporal_cycle_union view request = .ok cycle_union ∧
      IsWindowCore view request window_end cycle_union) ↔
    view.vertex_count < 2 ^ 32 ∨ Seen view request window_end := by
  have hmirrored := mirrored_of_build hends hids hsorted hbuild
  obtain ⟨h0, hfit, rfl⟩ := of_checked_window_end hend
  obtain ⟨cycle_union, hcompute, hlen, hmem⟩ :=
    compute_temporal_cycle_union_reads hmirrored request hr hf hid h0 hfit
  constructor
  · rintro ⟨found, hfound, hcore⟩
    obtain rfl : cycle_union = found := Except.ok.inj (hcompute.symm.trans hfound)
    refine Or.inr fun v hforward hreverse => ?_
    obtain ⟨included, hcontains, hiff⟩ := hcore.contains v (hmirrored.walk_lt hf hforward)
    rw [hiff.mpr ⟨hforward, hreverse⟩] at hcontains
    exact ((hmem v).mp (CycleUnion.contains_iff.mp hcontains)).2
  · intro hcondition
    have hseen := hcondition.elim (fun hcount => seen_of_lt ⟨hmirrored, hcount⟩) id
    have hwalks : ∀ v : Nat, cycle_union.included[v]? = some true ↔ v < view.vertex_count ∧
        EventWalk view request.start_timestamp (request.start_timestamp + request.window_width)
          request.first_vertex v ∧
        EventWalk view request.start_timestamp (request.start_timestamp + request.window_width)
          v request.root := fun v => (hmem v).trans (and_congr_right fun _ =>
      ⟨fun h => ⟨h.1.event_walk, h.2.event_walk⟩, fun h => hseen v h.1 h.2⟩)
    have hsmall : ∀ v : Nat, cycle_union.included[v]? = some true → v < 2 ^ 32 := fun v hv =>
      hmirrored.reverse_walk_id hid ((hmem v).mp hv).2.2
    refine ⟨cycle_union, hcompute, fun v hv => ?_, fun vertices events hcycle hbegin v hv => ?_,
      included_count_eq_zero_iff hf hwalks, cycle_union.length_included_vertices.symm, ?_,
      fun v => CycleUnion.mem_included_vertices hsmall⟩
    · have hcontains := CycleUnion.contains_eq (hlen ▸ hv)
      refine ⟨_, hcontains, ?_⟩
      rw [← Except.ok.injEq (ε := Error), ← hcontains, CycleUnion.contains_iff, hwalks]
      exact and_iff_right hv
    · obtain ⟨hfirst, hroot⟩ := hcycle.walks hbegin v hv
      exact CycleUnion.contains_iff.mpr
        ((hwalks v).mpr ⟨hmirrored.walk_lt hf hfirst, hfirst, hroot⟩)
    · rw [CycleUnion.included_vertices_eq hsmall]
      exact List.pairwise_lt_range.filter _

end Exact

-- A view with a loop, two edges from 0 to 1 and an edge without events.
theorem compute_temporal_cycle_union_exact_sample :
    ∃ view cycle_union, build_graph_view sample_graph = .ok view ∧
      compute_temporal_cycle_union view ⟨2, 0, 0, 5⟩ = .ok cycle_union ∧
      (cycle_union.included_count = 0 ↔ ¬EventWalk view 0 5 0 2) := by
  obtain ⟨cycle_union, hcompute, hcore⟩ :=
    (@compute_temporal_cycle_union_exact sample_graph _ (by decide) (by decide) (by decide) rfl
      ⟨2, 0, 0, 5⟩ 5 (by decide) (by decide) (by decide) rfl).mpr (Or.inl (by decide))
  exact ⟨_, cycle_union, rfl, hcompute, hcore.empty⟩

-- The last vertex has an event that leads to the root, but the union does not hold the root.
theorem compute_temporal_cycle_union_misses :
    Parsed back_view ∧ EventWalk back_view 0 1 (2 ^ 32 - 1) (2 ^ 32 - 2) ∧
      ∀ cycle_union, compute_temporal_cycle_union back_view ⟨2 ^ 32 - 2, 2 ^ 32 - 1, 0, 1⟩ =
        .ok cycle_union → cycle_union.contains (2 ^ 32 - 2) ≠ .ok true := by
  refine ⟨back_view_parsed, ?_, fun cycle_union h hcontains => ?_⟩
  · obtain ⟨edge, hedge, hroot, offset, hbegin, hend, htime⟩ := back_view_event
    refine .single ⟨edge, hedge, hroot, List.any_eq_true.mpr ⟨offset, ?_, ?_⟩⟩
    · rw [edge_events, List.mem_range'_1]
      omega
    · rw [htime]
      rfl
  · -- the search forward does not leave the last vertex, where it starts
    obtain ⟨found, hfound, -, hmem⟩ := compute_temporal_cycle_union_reads back_view_parsed.mirrored
      ⟨2 ^ 32 - 2, 2 ^ 32 - 1, 0, 1⟩ (by rw [back_view_vertex_count]; decide)
      (by rw [back_view_vertex_count]; decide) (by decide) (by decide) (by decide)
    obtain rfl : found = cycle_union := Except.ok.inj (hfound.symm.trans h)
    obtain ⟨-, hforward, -⟩ := (hmem _).mp (CycleUnion.contains_iff.mp hcontains)
    rcases Relation.ReflTransGen.cases_head hforward with heq | ⟨next, ⟨hid, -⟩, -⟩
    · exact absurd heq (by decide)
    · exact hid (by decide)

end CycleEnum.Sequential
