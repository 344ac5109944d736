import CycleEnum.Core.VertexLoop
import CycleEnum.Dynamic.Recount
import CycleEnum.Dynamic.Rebuild
import CycleEnum.Sequential.Theorems

namespace CycleEnum.Dynamic

open CycleEnum.Enumeration CycleEnum.Sequential

def build_from_lists (adjacency : List (List Nat)) : DirectedGraph :=
  let rows := adjacency.map fun row => unique (row.insertionSort (· ≤ ·))
  let offsets := (List.range rows.length).foldl
    (fun offsets vertex =>
      offsets.set (vertex + 1) (offsets.getD vertex 0 + (rows.getD vertex []).length))
    (List.replicate (rows.length + 1) 0)
  ⟨rows.length, offsets, rows.foldl (fun neighbors row => neighbors ++ row) []⟩

-- The body of the loop over the sources.
def push_row (view : GraphView) (adjacency : List (List Nat)) (source : Nat) : List (List Nat) :=
  (view.outgoing_row source).foldl
    (fun adjacency edge => adjacency.modify source (· ++ [edge.vertex])) adjacency

def build_directed_graph (fuel : Nat) (view : GraphView) : Option DirectedGraph := do
  let adjacency ← vertex_loop view.vertex_count (push_row view) fuel 0
    (List.replicate view.vertex_count [])
  return build_from_lists adjacency

section Offsets

variable {α : Type} {offsets : List Nat} {n : Nat} {xs : List α}

-- The rows of an array one after the other are the array.
theorem flatten_rows (h : Offsets offsets n xs.length) {v : Nat} (hv : v ≤ n) :
    ((List.range v).map (stored_row offsets xs)).flatten =
      xs.take (offsets.getD v 0) := by
  induction v with
  | zero =>
      rw [List.getD_eq_getElem?_getD, h.start]
      simp
  | succ v ih =>
      have hlen := h.length
      have hle : offsets.getD v 0 ≤ offsets.getD (v + 1) 0 := by
        rw [List.getD_eq_getElem _ _ (by omega), List.getD_eq_getElem _ _ (by omega)]
        exact List.pairwise_iff_getElem.mp h.ascending v (v + 1) _ _ (by omega)
      rw [List.range_succ, List.map_append, List.flatten_append, ih (by omega), List.map_singleton,
        List.flatten_singleton, stored_row, List.extract_eq_take_drop, ← List.take_add]
      congr 1
      omega

theorem concat_rows_of_offsets (h : Offsets offsets n xs.length) :
    concat_rows ((List.range n).map (stored_row offsets xs)) = (offsets, xs) := by
  have hlen := h.length
  have hfinish : offsets.getD n 0 = xs.length := by
    rw [List.getD_eq_getElem?_getD, h.finish]
    rfl
  rw [concat_rows_eq, flatten_rows h (Nat.le_refl n), hfinish, List.take_length, List.length_map,
    List.length_range]
  congr 1
  apply List.ext_getElem
  · simp [hlen]
  · intro v hv hv'
    have hvn : v ≤ n := by omega
    have hle := h.le_size _ (List.getElem_mem hv')
    rw [List.getElem_map, List.getElem_range, ← List.map_take, List.take_range, Nat.min_eq_left hvn,
      flatten_rows h hvn, List.length_take, List.getD_eq_getElem _ _ hv']
    omega

end Offsets

section Build

theorem foldl_push_row (entries : List AdjacencyEntry) (adjacency : List (List Nat)) (source : Nat) :
    entries.foldl (fun adjacency edge => adjacency.modify source (· ++ [edge.vertex])) adjacency =
      adjacency.modify source (· ++ entries.map (·.vertex)) := by
  induction entries generalizing adjacency with
  | nil =>
      rw [List.foldl_nil, List.map_nil]
      simp only [List.append_nil]
      exact (List.modify_id _ _).symm
  | cons edge entries ih =>
      rw [List.foldl_cons, ih, List.modify_modify_eq]
      simp [Function.comp_def]

theorem modify_length_append {α : Type} (front back : List α) (x : α) (f : α → α) {n : Nat}
    (hn : front.length = n) : (front ++ x :: back).modify n f = front ++ f x :: back := by
  induction front generalizing n with
  | nil =>
      subst hn
      rfl
  | cons y front ih =>
      subst hn
      rw [List.cons_append, List.length_cons, List.modify_succ_cons, ih rfl]
      rfl

theorem map_outgoing_entries (view : GraphView) (v : Nat) :
    (view.outgoing_entries v).map (·.vertex) =
      stored_row view.outgoing_offsets (view.outgoing_edges.map (·.vertex)) v := by
  rw [GraphView.outgoing_entries, stored_row, stored_row, List.extract_eq_take_drop,
    List.extract_eq_take_drop, List.map_take, List.map_drop]

-- The loop appends to every row what the view has there.
theorem foldl_rows (view : GraphView) {n : Nat} (hn : n ≤ view.vertex_count)
    (hcount : view.vertex_count < 2 ^ 32) :
    (List.range n).foldl (push_row view) (List.replicate view.vertex_count []) =
      ((List.range n).map fun v => (view.outgoing_entries v).map (·.vertex)) ++
        List.replicate (view.vertex_count - n) [] := by
  induction n with
  | zero => simp
  | succ n ih =>
      obtain ⟨left, hleft⟩ : ∃ left, view.vertex_count - n = left + 1 :=
        ⟨view.vertex_count - n - 1, by omega⟩
      have hwhole : view.outgoing_row n = view.outgoing_entries n := narrow_row_eq (by omega)
      rw [List.range_succ, List.foldl_append, ih (by omega), List.foldl_cons, List.foldl_nil,
        push_row, hwhole, foldl_push_row, hleft, List.replicate_succ, List.map_append,
        show view.vertex_count - (n + 1) = left by omega,
        modify_length_append _ _ _ _ (by simp)]
      simp

theorem sort_unique_ascending {row : List Nat} (h : row.Pairwise (· < ·)) :
    unique (row.insertionSort (· ≤ ·)) = row := by
  have hsorted : row.insertionSort (· ≤ ·) = row :=
    (h.imp Nat.le_of_lt).insertionSort_eq
  rw [hsorted, unique, List.destutter_eq_self_iff]
  exact (h.imp Nat.ne_of_lt).isChain

theorem build_from_lists_eq {rows : List (List Nat)} (h : ∀ row ∈ rows, row.Pairwise (· < ·)) :
    build_from_lists rows = ⟨rows.length, (concat_rows rows).1, (concat_rows rows).2⟩ := by
  have hrows : rows.map (fun row => unique (row.insertionSort (· ≤ ·))) = rows :=
    (List.map_congr_left fun row hr => sort_unique_ascending (h row hr)).trans (List.map_id _)
  obtain ⟨hlen, hvalue⟩ := @Rebuild.foldl_offsets rows
    (fun offsets vertex =>
      offsets.set (vertex + 1) (offsets.getD vertex 0 + (rows.getD vertex []).length))
    (fun offsets v _ => rfl) rows.length (Nat.le_refl _)
  have hneighbors : rows.foldl (fun neighbors row => neighbors ++ row) [] = rows.flatten := by
    rw [List.foldl_append_eq_append]
    simp
  rw [build_from_lists, hrows, concat_rows_eq, hneighbors]
  congr 1
  apply List.ext_getElem
  · rw [hlen]
    simp
  · intro v hv hv'
    have := hvalue v (by omega)
    rw [List.getD_eq_getElem _ _ hv] at this
    rw [this]
    simp

-- A view with sorted rows becomes the graph of its offsets and neighbours, if the loop
-- over the vertices ends.
theorem build_directed_graph_iff {view : GraphView}
    (hoffsets : Offsets view.outgoing_offsets view.vertex_count view.outgoing_edges.length)
    (hascending : ∀ v, (view.outgoing_entries v).Pairwise (·.vertex < ·.vertex))
    {graph : DirectedGraph} :
    (∃ fuel, build_directed_graph fuel view = some graph) ↔ view.vertex_count < 2 ^ 32 ∧
      graph = ⟨view.vertex_count, view.outgoing_offsets, view.outgoing_edges.map (·.vertex)⟩ := by
  have hbuilt : view.vertex_count < 2 ^ 32 → build_from_lists
      ((List.range view.vertex_count).foldl (push_row view)
        (List.replicate view.vertex_count [])) =
      ⟨view.vertex_count, view.outgoing_offsets, view.outgoing_edges.map (·.vertex)⟩ := by
    intro hcount
    have hrows : ((List.range view.vertex_count).map fun v =>
        (view.outgoing_entries v).map (·.vertex)) = (List.range view.vertex_count).map
          (stored_row view.outgoing_offsets (view.outgoing_edges.map (·.vertex))) :=
      List.map_congr_left fun v _ => map_outgoing_entries view v
    rw [foldl_rows view (Nat.le_refl _) hcount, Nat.sub_self, List.replicate_zero, List.append_nil,
      build_from_lists_eq fun row hr => ?_, List.length_map, List.length_range, hrows,
      concat_rows_of_offsets (by rwa [List.length_map])]
    obtain ⟨v, -, rfl⟩ := List.mem_map.mp hr
    exact List.pairwise_map.mpr (hascending v)
  constructor
  · intro h
    obtain ⟨fuel, hfuel⟩ := h
    obtain ⟨adjacency, hloop, hgraph⟩ := Option.bind_eq_some_iff.mp hfuel
    obtain ⟨hcount, hfold⟩ := (vertex_loop_iff _ _ _).mp ⟨fuel, hloop⟩
    obtain rfl := Option.some.inj hgraph
    rw [← hfold, hbuilt hcount]
    exact ⟨hcount, rfl⟩
  · intro h
    obtain ⟨hcount, rfl⟩ := h
    obtain ⟨fuel, hloop⟩ := (vertex_loop_iff (push_row view)
      (List.replicate view.vertex_count []) _).mpr ⟨hcount, rfl⟩
    refine ⟨fuel, ?_⟩
    rw [build_directed_graph, hloop, ← hbuilt hcount]
    rfl

end Build

section View

variable {graph : DirectedGraph} {view : GraphView}

theorem filter_edges (graph : DirectedGraph) (v n : Nat) :
    ((List.range n).flatMap fun source =>
        (graph.row source).map fun target => (⟨source, target, [0]⟩ : TemporalEdge)).filter
          (·.source = v) =
      if v < n then (graph.row v).map fun target => ⟨v, target, [0]⟩ else [] := by
  induction n with
  | zero => simp
  | succ n ih =>
      rw [List.range_succ, List.flatMap_append, List.filter_append, ih, List.flatMap_singleton]
      by_cases hv : n = v
      · subst hv
        rw [if_neg (Nat.lt_irrefl n), if_pos (Nat.lt_succ_self n), List.nil_append,
          List.filter_eq_self.mpr]
        intro edge he
        obtain ⟨target, -, rfl⟩ := List.mem_map.mp he
        simp
      · have hnone : ((graph.row n).map fun target => (⟨n, target, [0]⟩ : TemporalEdge)).filter
            (·.source = v) = [] := by
          refine List.filter_eq_nil_iff.mpr fun edge he => ?_
          obtain ⟨target, -, rfl⟩ := List.mem_map.mp he
          simpa using hv
        rw [hnone, List.append_nil]
        by_cases hlt : v < n
        · rw [if_pos hlt, if_pos (by omega)]
        · rw [if_neg hlt, if_neg (by omega)]

theorem edge_count_temporal_graph (hg : graph.Valid) :
    (temporal_graph graph).edge_count = graph.neighbors.length := by
  have hflat := flatten_rows hg.offsets (Nat.le_refl _)
  have hfinish : graph.offsets.getD graph.vertex_count 0 = graph.neighbors.length := by
    rw [List.getD_eq_getElem?_getD, hg.offsets.finish]
    rfl
  rw [hfinish, List.take_length] at hflat
  rw [TemporalGraph.edge_count, temporal_graph, ← hflat]
  simp [List.length_flatMap, List.length_flatten, DirectedGraph.row, Function.comp_def]

-- The view of a graph has its offsets and neighbours.
theorem to_graph_view_arrays (hg : graph.Valid) (hids : graph.vertex_count < 2 ^ 32)
    (hedges : graph.neighbors.length ≤ MAX_EDGE_ID) :
    ∃ view, to_graph_view graph = .ok view ∧ view.vertex_count = graph.vertex_count ∧
      view.outgoing_offsets = graph.offsets ∧
      view.outgoing_edges.map (·.vertex) = graph.neighbors := by
  have hends : ∀ edge ∈ (temporal_graph graph).edges,
      edge.source < (temporal_graph graph).vertex_count ∧
        edge.target < (temporal_graph graph).vertex_count := by
    intro edge he
    obtain ⟨source, hs, target, ht, rfl⟩ := (mem_temporal_graph_edges hids).mp he
    rw [temporal_graph_vertex_count]
    obtain ⟨i, -, -, hi⟩ := mem_extract_iff.mp ht
    exact ⟨hs, hg.bounded target (List.mem_of_getElem? hi)⟩
  obtain ⟨view, hview, hfaithful⟩ := build_graph_view_faithful hends
    (by rw [edge_count_temporal_graph hg]; exact hedges)
  have hcount : view.vertex_count = graph.vertex_count := by
    rw [hfaithful.vertex_count, temporal_graph_vertex_count]
  have hoffsets := hfaithful.outgoing.offsets
  rw [temporal_graph_vertex_count] at hoffsets
  obtain ⟨-, -, -, -, hrow⟩ := build_graph_view_ok hview
  have hvertices : ∀ v < graph.vertex_count,
      (view.outgoing_entries v).map (·.vertex) = graph.row v := by
    intro v hv
    have hperm : ((view.outgoing_entries v).map (·.vertex)).Perm (graph.row v) := by
      rw [hrow, temporal_graph_vertex_count, if_pos hv]
      refine ((perm_sort_entries _).map _).trans (List.Perm.of_eq ?_)
      rw [leaving_vertices, temporal_graph_edges hids, filter_edges, if_pos hv, List.map_map]
      exact List.map_id _
    have hsorted : ((view.outgoing_entries v).map (·.vertex)).Pairwise (· ≤ ·) := by
      rw [hrow, temporal_graph_vertex_count, if_pos hv]
      exact List.pairwise_map.mpr ((sort_entries_pairwise _).imp fun h => by omega)
    exact hperm.eq_of_pairwise (fun a b _ _ hab hba => Nat.le_antisymm hab hba) hsorted
      ((hg.ascending v hv).imp Nat.le_of_lt)
  have hboth := (@concat_rows_of_offsets _ _ _ (view.outgoing_edges.map (·.vertex))
    (by rwa [List.length_map])).symm.trans
    ((congrArg concat_rows (List.map_congr_left fun v hv => ?_)).trans
      (concat_rows_of_offsets hg.offsets))
  · exact ⟨view, hview, hcount, (Prod.mk.inj hboth).1, (Prod.mk.inj hboth).2⟩
  · exact (map_outgoing_entries view v).symm.trans (hvertices v (List.mem_range.mp hv))

-- Converting a graph to a view and back gives the graph.
def RoundTrips (graph : DirectedGraph) : Prop :=
  ∃ view, to_graph_view graph = .ok view ∧ ∃ fuel, build_directed_graph fuel view = some graph

-- Converting a view to a graph and back gives its arrays, and the count of its cycles.
def ViewRoundTrips (view : GraphView) (cap : Option Nat) : Prop :=
  ∃ fuel graph, build_directed_graph fuel view = some graph ∧
    ∃ view', to_graph_view graph = .ok view' ∧
      view'.outgoing_offsets = view.outgoing_offsets ∧
      view'.outgoing_edges.map (·.vertex) = view.outgoing_edges.map (·.vertex) ∧
      count_simple_cycles_johnson view' cap = count_simple_cycles_johnson view cap

-- Rows of the same vertices have the same cycles.
theorem count_simple_cycles_johnson_congr {view' : GraphView} {cap : Option Nat}
    (hw : view.WellFormed) (hw' : view'.WellFormed) (hcap : ∀ limit ∈ cap, 2 ≤ limit)
    (h : ∀ v, (view'.outgoing_entries v).map (·.vertex) =
      (view.outgoing_entries v).map (·.vertex)) :
    count_simple_cycles_johnson view' cap = count_simple_cycles_johnson view cap := by
  have harc : Arc view' = Arc view := by
    funext u v
    have hmem : ∀ other : GraphView,
        Arc other u v ↔ v ∈ (other.outgoing_entries u).map (·.vertex) := fun other => by simp [Arc]
    exact propext ((hmem view').trans ((h u).symm ▸ (hmem view).symm))
  rw [count_simple_cycles_johnson_eq hw' hcap, count_simple_cycles_johnson_eq hw hcap]
  refine CycleHistogram.record_congr (static_events_two_le hw') (static_events_two_le hw) fun k => ?_
  by_cases hk : 2 ≤ k
  · by_cases hle : ∀ limit ∈ cap, k ≤ limit
    · rw [static_tally_eq hw' hk hle, static_tally_eq hw hk hle, simple_cycles, simple_cycles, harc]
    · rw [static_tally_beyond hw' hk hle, static_tally_beyond hw hk hle]
  · rw [CycleHistogram.tally_eq_zero (static_events_two_le hw') (by omega),
      CycleHistogram.tally_eq_zero (static_events_two_le hw) (by omega)]

theorem view_of_graph_ascending (hg : graph.Valid)
    (hoffsets : view.outgoing_offsets = graph.offsets)
    (hneighbors : view.outgoing_edges.map (·.vertex) = graph.neighbors) (v : Nat) :
    (view.outgoing_entries v).Pairwise (·.vertex < ·.vertex) := by
  have hrow : (view.outgoing_entries v).map (·.vertex) = graph.row v := by
    rw [map_outgoing_entries, hoffsets, hneighbors, DirectedGraph.row]
  apply List.pairwise_map.mp
  rw [hrow]
  by_cases hv : v < graph.vertex_count
  · exact hg.ascending v hv
  · rw [hg.row_eq_nil (by omega)]
    exact List.Pairwise.nil

theorem round_trips_iff (hg : graph.Valid) (hedges : graph.neighbors.length ≤ MAX_EDGE_ID) :
    RoundTrips graph ↔ graph.vertex_count < 2 ^ 32 := by
  constructor
  · intro h
    obtain ⟨view, hview, fuel, hbuild⟩ := h
    obtain ⟨adjacency, hloop, -⟩ := Option.bind_eq_some_iff.mp hbuild
    have hcount := (build_graph_view_ok hview).2.1
    rw [temporal_graph_vertex_count] at hcount
    rw [← hcount]
    exact ((vertex_loop_iff _ _ _).mp ⟨fuel, hloop⟩).1
  · intro hids
    obtain ⟨view, hview, hcount, hoffsets, hneighbors⟩ :=
      to_graph_view_arrays hg hids hedges
    have hlength : view.outgoing_edges.length = graph.neighbors.length := by
      rw [← hneighbors, List.length_map]
    refine ⟨view, hview, (build_directed_graph_iff ?_
      (view_of_graph_ascending hg hoffsets hneighbors)).mpr ⟨by rwa [hcount], ?_⟩⟩
    · rw [hoffsets, hcount, hlength]
      exact hg.offsets
    · rw [hcount, hoffsets, hneighbors]

-- The graph of the offsets and neighbours of a view.
def directed_of (view : GraphView) : DirectedGraph :=
  ⟨view.vertex_count, view.outgoing_offsets, view.outgoing_edges.map (·.vertex)⟩

theorem directed_of_row (view : GraphView) (v : Nat) :
    (directed_of view).row v = (view.outgoing_entries v).map (·.vertex) :=
  (map_outgoing_entries view v).symm

theorem parsed_offsets (hg : Parsed view) :
    Offsets view.outgoing_offsets view.vertex_count view.outgoing_edges.length ∧
      view.outgoing_edges.length ≤ MAX_EDGE_ID := by
  obtain ⟨rows, hrows⟩ := hg
  have hfaithful := faithful_of_build (parsed_graph_endpoints rows) hrows
  refine ⟨hfaithful.vertex_count ▸ hfaithful.outgoing.offsets, ?_⟩
  rw [hfaithful.outgoing.size]
  exact (build_graph_view_ok hrows).1

theorem parsed_ascending (hg : Parsed view) (v : Nat) :
    (view.outgoing_entries v).Pairwise (·.vertex < ·.vertex) := by
  obtain ⟨rows, hrows⟩ := hg
  exact ascending_of_build (parsed_graph_distinct rows) hrows v

theorem directed_of_start (hg : Parsed view) : (directed_of view).offsets.getD 0 0 = 0 := by
  rw [directed_of, List.getD_eq_getElem?_getD, (parsed_offsets hg).1.start]
  rfl

theorem directed_of_well_formed (hg : Parsed view) (hids : view.vertex_count < 2 ^ 32) :
    (directed_of view).WellFormed := by
  have hw := hg.well_formed hids
  refine ⟨(parsed_offsets hg).1.length, directed_of_start hg, fun v => ?_, fun v hv => ?_,
    fun v next hn => ?_, hids⟩
  · rw [directed_of_row]
    exact List.pairwise_map.mpr (parsed_ascending hg v)
  · rw [directed_of_row, ← hw.whole] at hv
    obtain ⟨entry, he, hvertex⟩ := List.mem_map.mp hv
    exact hw.no_loop v entry he hvertex
  · rw [directed_of_row, ← hw.whole] at hn
    obtain ⟨entry, he, rfl⟩ := List.mem_map.mp hn
    exact (hw.bounded v entry he).2

theorem directed_of_valid (hg : Parsed view) (hids : view.vertex_count < 2 ^ 32) :
    (directed_of view).Valid := by
  have hw := hg.well_formed hids
  have hoffsets := (parsed_offsets hg).1
  refine ⟨by rwa [directed_of, List.length_map], fun v _ => ?_, fun next hn => ?_⟩
  · rw [directed_of_row]
    exact List.pairwise_map.mpr (parsed_ascending hg v)
  · obtain ⟨entry, he, rfl⟩ := List.mem_map.mp hn
    obtain ⟨v, -, hin⟩ := hoffsets.mem_row he
    exact (hw.bounded v entry ((hw.whole v).symm ▸ hin)).2

theorem build_parsed_iff (hg : Parsed view) {graph : DirectedGraph} :
    (∃ fuel, build_directed_graph fuel view = some graph) ↔
      view.vertex_count < 2 ^ 32 ∧ graph = directed_of view :=
  build_directed_graph_iff (parsed_offsets hg).1 (parsed_ascending hg)

theorem view_round_trips_iff (hg : Parsed view) {cap : Option Nat}
    (hcap : ∀ limit ∈ cap, 2 ≤ limit) : ViewRoundTrips view cap ↔ view.vertex_count < 2 ^ 32 := by
  constructor
  · intro h
    obtain ⟨fuel, graph, hbuild, -⟩ := h
    exact ((build_parsed_iff hg).mp ⟨fuel, hbuild⟩).1
  · intro hids
    obtain ⟨fuel, hbuild⟩ := (build_parsed_iff hg).mpr ⟨hids, rfl⟩
    have hwell := directed_of_well_formed hg hids
    have hedges : (directed_of view).neighbors.length ≤ MAX_EDGE_ID := by
      rw [directed_of, List.length_map]
      exact (parsed_offsets hg).2
    obtain ⟨view', hview', -, hoffsets', hneighbors⟩ :=
      to_graph_view_arrays (directed_of_valid hg hids) hids hedges
    refine ⟨fuel, _, hbuild, view', hview', hoffsets', hneighbors, ?_⟩
    apply count_simple_cycles_johnson_congr (hg.well_formed hids)
      (to_graph_view_well_formed hwell hview') hcap
    intro v
    rw [map_outgoing_entries, hoffsets', hneighbors, map_outgoing_entries]
    rfl

-- Both conversions lose nothing exactly where the loop over the sources, whose variable
-- has 32 bits, ends.
theorem graph_conversions_round_trip_iff {graph : DirectedGraph} (hg : graph.Valid)
    (hedges : graph.neighbors.length ≤ MAX_EDGE_ID) {view : GraphView} (hview : Parsed view)
    {cap : Option Nat} (hcap : ∀ limit ∈ cap, 2 ≤ limit) :
    (RoundTrips graph ↔ graph.vertex_count < 2 ^ 32) ∧
      (ViewRoundTrips view cap ↔ view.vertex_count < 2 ^ 32) :=
  ⟨round_trips_iff hg hedges, view_round_trips_iff hview hcap⟩

theorem graph_conversions_round_trip_iff_sample :
    (RoundTrips (edgeless 3) ↔ (edgeless 3).vertex_count < 2 ^ 32) ∧
      (ViewRoundTrips (view_of sample_rows) (some 4) ↔
        (view_of sample_rows).vertex_count < 2 ^ 32) := by
  refine graph_conversions_round_trip_iff (edgeless_valid 3) (Nat.zero_le _) sample_parsed ?_
  intro limit hlimit
  cases hlimit
  omega

-- The conversion back of this graph's view does not end.
theorem graph_conversions_endless :
    (edgeless (2 ^ 32)).Valid ∧ (edgeless (2 ^ 32)).neighbors.length ≤ MAX_EDGE_ID ∧
      ¬RoundTrips (edgeless (2 ^ 32)) := by
  have hvalid := edgeless_valid (2 ^ 32)
  have hedges : (edgeless (2 ^ 32)).neighbors.length ≤ MAX_EDGE_ID := Nat.zero_le _
  refine ⟨hvalid, hedges, fun htrips => ?_⟩
  exact absurd ((round_trips_iff hvalid hedges).mp htrips) (Nat.lt_irrefl (2 ^ 32))

end View

end CycleEnum.Dynamic
