import CycleEnum.Core.Lossless
import CycleEnum.Core.Transpose

namespace CycleEnum

namespace TemporalGraph

def compact_id (graph : TemporalGraph) (external : Int) : Option Nat :=
  (graph.external_ids.idxOf? external).map (· % 2 ^ 32)

def find_edge (graph : TemporalGraph) (source target : Nat) : Option TemporalEdge :=
  graph.edges.find? fun edge => edge.source = source ∧ edge.target = target

end TemporalGraph

namespace GraphView

def validate_vertex (graph : GraphView) (vertex : Nat) : Except Error Unit :=
  if vertex ≥ graph.vertex_count then
    .error (.out_of_range "compact vertex id is out of range")
  else .ok ()

-- `offsets[vertex + 1] - offsets[vertex]`, a `VertexId` in the index and `std::size_t` offsets.
def degree (offsets : List Nat) (vertex : Nat) : Nat :=
  (offsets.getD (next_id vertex) 0 + 2 ^ 64 - offsets.getD vertex 0) % 2 ^ 64

def out_degree (graph : GraphView) (vertex : Nat) : Except Error Nat := do
  graph.validate_vertex vertex
  return degree graph.outgoing_offsets vertex

def in_degree (graph : GraphView) (vertex : Nat) : Except Error Nat := do
  graph.validate_vertex vertex
  return degree graph.incoming_offsets vertex

end GraphView

section Ids

variable {rows : List RawTemporalEdge}

theorem idxOf_getD {ids : List Int} (hids : ids.Nodup) {v : Nat} (hv : v < ids.length) :
    ids.idxOf (ids.getD v 0) = v := by
  rw [List.getD_eq_getElem _ _ hv]
  exact hids.idxOf_getElem v hv

theorem getD_idxOf {ids : List Int} {id : Int} (hid : id ∈ ids) : ids.getD (ids.idxOf id) 0 = id := by
  rw [List.getD_eq_getElem _ _ (List.idxOf_lt_length_of_mem hid), List.getElem_idxOf]

theorem external_ids_nodup (rows : List RawTemporalEdge) : (graph_of_rows rows).external_ids.Nodup :=
  (external_ids_pairwise (kept_rows rows)).imp fun h => Int.ne_of_lt h

theorem mem_external_ids {row : RawTemporalEdge} (hrow : row ∈ kept_rows rows) :
    row.source ∈ (graph_of_rows rows).external_ids ∧
      row.target ∈ (graph_of_rows rows).external_ids :=
  ⟨mem_external_ids_iff.mpr ⟨row, hrow, Or.inl rfl⟩, mem_external_ids_iff.mpr ⟨row, hrow, Or.inr rfl⟩⟩

-- The endpoints of an edge by their ids in the file.
theorem edge_ids {edge : TemporalEdge} (hedge : edge ∈ (graph_of_rows rows).edges) :
    (graph_of_rows rows).external_ids.idxOf
        ((graph_of_rows rows).external_ids.getD edge.source 0) = edge.source ∧
      (graph_of_rows rows).external_ids.idxOf
        ((graph_of_rows rows).external_ids.getD edge.target 0) = edge.target := by
  obtain ⟨hs, ht⟩ := (simple_graph_of_rows rows).endpoints edge hedge
  exact ⟨idxOf_getD (external_ids_nodup rows) hs, idxOf_getD (external_ids_nodup rows) ht⟩

theorem mem_expanded {row : RawTemporalEdge} {graph : TemporalGraph} :
    row ∈ graph.expanded ↔ ∃ edge ∈ graph.edges, row.timestamp ∈ edge.timestamps ∧
      graph.external_ids.getD edge.source 0 = row.source ∧
      graph.external_ids.getD edge.target 0 = row.target := by
  simp only [TemporalGraph.expanded, List.mem_flatMap, List.mem_map]
  constructor
  · rintro ⟨edge, hedge, timestamp, ht, rfl⟩
    exact ⟨edge, hedge, ht, rfl, rfl⟩
  · rintro ⟨edge, hedge, ht, hs, htarget⟩
    exact ⟨edge, hedge, row.timestamp, ht, by rw [hs, htarget]⟩

-- Which edges there are, by the ids in the file.
theorem exists_edge_iff (source target : Int) :
    (∃ edge ∈ (graph_of_rows rows).edges,
      (graph_of_rows rows).external_ids.getD edge.source 0 = source ∧
      (graph_of_rows rows).external_ids.getD edge.target 0 = target) ↔
      ∃ row ∈ kept_rows rows, row.source = source ∧ row.target = target := by
  constructor
  · rintro ⟨edge, hedge, rfl, rfl⟩
    obtain ⟨timestamp, ht⟩ := List.exists_mem_of_ne_nil _
      ((lossless_graph_of_rows rows).timestamps edge hedge).1
    exact ⟨⟨_, _, timestamp⟩, (graph_of_rows_expanded rows).mem_iff.mp
      (mem_expanded.mpr ⟨edge, hedge, ht, rfl, rfl⟩), rfl, rfl⟩
  · rintro ⟨row, hrow, rfl, rfl⟩
    obtain ⟨edge, hedge, -, hs, ht⟩ :=
      mem_expanded.mp ((graph_of_rows_expanded rows).mem_iff.mpr hrow)
    exact ⟨edge, hedge, hs, ht⟩

end Ids

section Edges

variable {rows : List RawTemporalEdge}

-- The timestamps of the rows from one vertex to another.
def row_timestamps (rows : List RawTemporalEdge) (source target : Int) : List Int :=
  ((kept_rows rows).filter fun row => row.source = source ∧ row.target = target).map (·.timestamp)

theorem compact_id_eq_some_iff (hids : (graph_of_rows rows).vertex_count ≤ 2 ^ 32) {id : Int}
    {vertex : Nat} : (graph_of_rows rows).compact_id id = some vertex ↔
      (graph_of_rows rows).external_id vertex = .ok id := by
  rw [external_id_eq_ok_iff, TemporalGraph.compact_id, Option.map_eq_some_iff]
  unfold TemporalGraph.vertex_count at hids
  constructor
  · rintro ⟨found, hfound, rfl⟩
    obtain ⟨hlt, hat, -⟩ := List.idxOf?_eq_some_iff.mp hfound
    rw [Nat.mod_eq_of_lt (by omega), ← hat]
    exact List.getElem?_eq_getElem hlt
  · intro hat
    obtain ⟨hlt, rfl⟩ := List.getElem?_eq_some_iff.mp hat
    refine ⟨vertex, List.idxOf?_eq_some_iff.mpr ⟨hlt, rfl, fun j hj heq => ?_⟩,
      Nat.mod_eq_of_lt (by omega)⟩
    exact Nat.ne_of_lt hj ((external_ids_nodup rows).getElem_inj_iff.mp heq)

theorem compact_endpoints_eq_iff {u v : Nat} {source target : Int} {row : RawTemporalEdge}
    (hrow : row ∈ kept_rows rows) (hs : (graph_of_rows rows).external_id u = .ok source)
    (ht : (graph_of_rows rows).external_id v = .ok target) :
    compact_endpoints (external_ids_of (kept_rows rows)) row = (u, v) ↔
      row.source = source ∧ row.target = target := by
  have hindex : ∀ {w : Nat} {id id' : Int}, id' ∈ (graph_of_rows rows).external_ids →
      (graph_of_rows rows).external_id w = .ok id →
      ((graph_of_rows rows).external_ids.idxOf id' = w ↔ id' = id) := by
    intro w id id' hmem hw
    rw [external_id_eq_ok_iff] at hw
    obtain ⟨hlt, rfl⟩ := List.getElem?_eq_some_iff.mp hw
    constructor
    · rintro rfl
      rw [List.getElem_idxOf]
    · rintro rfl
      exact (external_ids_nodup rows).idxOf_getElem w hlt
  obtain ⟨hsource, htarget⟩ := mem_external_ids hrow
  rw [compact_endpoints, Prod.mk.injEq]
  exact and_congr (hindex hsource hs) (hindex htarget ht)

theorem find_edge_timestamps {u v : Nat} {source target : Int}
    (hs : (graph_of_rows rows).external_id u = .ok source)
    (ht : (graph_of_rows rows).external_id v = .ok target) :
    ((graph_of_rows rows).find_edge u v).map (·.timestamps) =
      if row_timestamps rows source target = [] then none
      else some ((row_timestamps rows source target).insertionSort (· ≤ ·)) := by
  have hgroup : grouped_timestamps (external_ids_of (kept_rows rows)) (kept_rows rows) (u, v) =
      row_timestamps rows source target := by
    refine congrArg (List.map _) (List.filter_congr fun row hrow => ?_)
    rw [decide_eq_decide]
    exact compact_endpoints_eq_iff hrow hs ht
  cases hfound : (graph_of_rows rows).find_edge u v with
  | some edge =>
      obtain ⟨hends, hedge⟩ := And.intro (List.find?_some hfound) (List.mem_of_find?_eq_some hfound)
      obtain ⟨rfl, rfl⟩ : edge.source = u ∧ edge.target = v := by simpa using hends
      have hne := ((lossless_graph_of_rows rows).timestamps edge hedge).1
      obtain ⟨key, -, rfl⟩ := List.mem_map.mp hedge
      rw [hgroup] at hne
      rw [if_neg fun hnil => hne (by rw [hnil, List.insertionSort_nil]), Option.map_some, hgroup]
  | none =>
      rw [if_pos, Option.map_none]
      refine List.map_eq_nil_iff.mpr (List.filter_eq_nil_iff.mpr fun row hrow hends => ?_)
      have hkey := (compact_endpoints_eq_iff hrow hs ht).mpr (by simpa using hends)
      obtain ⟨edge, hedge, -, hsource, htarget⟩ :=
        mem_expanded.mp ((graph_of_rows_expanded rows).mem_iff.mpr hrow)
      have hmiss := List.find?_eq_none.mp hfound edge hedge
      obtain ⟨hu, hv⟩ := Prod.mk.inj hkey
      refine hmiss (decide_eq_true ⟨?_, ?_⟩)
      · rw [← hu, ← hsource]
        exact (edge_ids hedge).1.symm
      · rw [← hv, ← htarget]
        exact (edge_ids hedge).2.symm

end Edges

section Degrees

variable {rows : List RawTemporalEdge} {view : GraphView}

-- The distinct ids that the rows at a vertex lead to.
def neighbour_ids (rows : List RawTemporalEdge) (near far : RawTemporalEdge → Int) (id : Int) :
    List Int :=
  (((kept_rows rows).filter fun row => near row = id).map far).dedup

theorem Direction.degree_eq {graph : TemporalGraph} {offsets : List Nat} {edges : List AdjacencyEntry}
    {row : Nat → List AdjacencyEntry} {key neighbour : TemporalEdge → Nat}
    (h : Direction graph offsets edges row key neighbour)
    (hrow : ∀ v, row v = edges.extract (offsets.getD v 0) (offsets.getD (v + 1) 0))
    (hfit : graph.edge_count ≤ MAX_EDGE_ID) (hids : graph.vertex_count < 2 ^ 32) {v : Nat}
    (hv : v < graph.vertex_count) : GraphView.degree offsets v = (row v).length := by
  have hlt : v + 1 < offsets.length := by
    rw [h.offsets.length]
    omega
  have hsize : offsets.getD (v + 1) 0 ≤ edges.length := by
    rw [List.getD_eq_getElem _ _ hlt]
    exact h.offsets.le_size _ (List.getElem_mem hlt)
  have hascending := h.offsets.getD_le (Nat.le_add_right v 1) hv
  have hsmall : edges.length < 2 ^ 64 := by
    rw [h.size]
    exact Nat.lt_of_le_of_lt hfit (by decide)
  rw [hrow, List.extract_eq_take_drop, List.length_take, List.length_drop, GraphView.degree,
    next_id_of_lt hv hids]
  omega

-- A row names no neighbour twice.
theorem Direction.neighbours_nodup {graph : TemporalGraph} {offsets : List Nat}
    {edges : List AdjacencyEntry} {row : Nat → List AdjacencyEntry}
    {key neighbour : TemporalEdge → Nat} (h : Direction graph offsets edges row key neighbour)
    (hdistinct : (graph.edges.map fun edge => (key edge, neighbour edge)).Nodup) (v : Nat) :
    ((row v).map (·.vertex)).Nodup := by
  have hnodup : (row v).Nodup := (h.sorted v).imp fun {a b} hlt heq => by
    subst heq
    omega
  refine hnodup.map_on fun a ha b hb heq => ?_
  obtain ⟨i, edge, hi, hv, rfl⟩ := h.mem_row.mp ha
  obtain ⟨j, edge', hj, hv', rfl⟩ := h.mem_row.mp hb
  have hpair : (key edge, neighbour edge) = (key edge', neighbour edge') :=
    Prod.ext (hv.symm.trans hv') heq
  have hlt : i < (graph.edges.map fun edge => (key edge, neighbour edge)).length := by
    rw [List.length_map]
    exact (List.getElem?_eq_some_iff.mp hi).1
  have hsame : i = j := (List.getElem?_inj hlt hdistinct).mp (by simp [hi, hj, hpair])
  subst hsame
  obtain rfl := Option.some.inj (hi.symm.trans hj)
  rfl

section Names

variable {offsets : List Nat} {edges : List AdjacencyEntry} {row : Nat → List AdjacencyEntry}
  {key neighbour : TemporalEdge → Nat}
  (h : Direction (graph_of_rows rows) offsets edges row key neighbour)
  (hbounds : ∀ edge ∈ (graph_of_rows rows).edges, key edge < (graph_of_rows rows).vertex_count ∧
    neighbour edge < (graph_of_rows rows).vertex_count)

include h hbounds

-- The neighbours of a vertex by their ids in the file.
theorem Direction.names_nodup
    (hdistinct : ((graph_of_rows rows).edges.map fun edge => (key edge, neighbour edge)).Nodup)
    (v : Nat) : ((row v).map fun entry =>
      (graph_of_rows rows).external_ids.getD entry.vertex 0).Nodup := by
  have hids := external_ids_nodup rows
  have hnames := h.neighbours_nodup hdistinct v
  rw [show (fun entry : AdjacencyEntry => (graph_of_rows rows).external_ids.getD entry.vertex 0) =
    (fun w => (graph_of_rows rows).external_ids.getD w 0) ∘ (·.vertex) from rfl, ← List.map_map]
  refine hnames.map_on fun a ha b hb heq => ?_
  obtain ⟨entry, hentry, rfl⟩ := List.mem_map.mp ha
  obtain ⟨entry', hentry', rfl⟩ := List.mem_map.mp hb
  obtain ⟨i, edge, hi, -, rfl⟩ := h.mem_row.mp hentry
  obtain ⟨j, edge', hj, -, rfl⟩ := h.mem_row.mp hentry'
  rw [← idxOf_getD hids (hbounds edge (List.mem_of_getElem? hi)).2, heq,
    idxOf_getD hids (hbounds edge' (List.mem_of_getElem? hj)).2]

theorem Direction.mem_names_iff {near far : RawTemporalEdge → Int}
    (hedges : ∀ id other, (∃ edge ∈ (graph_of_rows rows).edges,
        (graph_of_rows rows).external_ids.getD (key edge) 0 = id ∧
        (graph_of_rows rows).external_ids.getD (neighbour edge) 0 = other) ↔
      ∃ row ∈ kept_rows rows, near row = id ∧ far row = other)
    {v : Nat} (hv : v < (graph_of_rows rows).vertex_count) {other : Int} :
    other ∈ (row v).map (fun entry => (graph_of_rows rows).external_ids.getD entry.vertex 0) ↔
      other ∈ neighbour_ids rows near far ((graph_of_rows rows).external_ids.getD v 0) := by
  have hids := external_ids_nodup rows
  simp only [neighbour_ids, List.mem_dedup, List.mem_map, List.mem_filter, decide_eq_true_eq]
  constructor
  · rintro ⟨entry, hentry, rfl⟩
    obtain ⟨i, edge, hi, rfl, rfl⟩ := h.mem_row.mp hentry
    obtain ⟨found, hfound, hnear, hfar⟩ := (hedges _ _).mp
      ⟨edge, List.mem_of_getElem? hi, rfl, rfl⟩
    exact ⟨found, ⟨hfound, hnear⟩, hfar⟩
  · rintro ⟨found, ⟨hfound, hnear⟩, rfl⟩
    obtain ⟨edge, hedge, hkey, hneighbour⟩ := (hedges _ _).mpr ⟨found, hfound, hnear, rfl⟩
    obtain ⟨i, hi⟩ := List.mem_iff_getElem?.mp hedge
    refine ⟨_, h.mem_row.mpr ⟨i, edge, hi, ?_, rfl⟩, hneighbour⟩
    rw [← idxOf_getD hids hv, ← hkey, idxOf_getD hids (hbounds edge hedge).1]

theorem Direction.degree_rows {near far : RawTemporalEdge → Int}
    (hrow : ∀ v, row v = edges.extract (offsets.getD v 0) (offsets.getD (v + 1) 0))
    (hfit : (graph_of_rows rows).edge_count ≤ MAX_EDGE_ID)
    (hids : (graph_of_rows rows).vertex_count < 2 ^ 32)
    (hdistinct : ((graph_of_rows rows).edges.map fun edge => (key edge, neighbour edge)).Nodup)
    (hedges : ∀ id other, (∃ edge ∈ (graph_of_rows rows).edges,
        (graph_of_rows rows).external_ids.getD (key edge) 0 = id ∧
        (graph_of_rows rows).external_ids.getD (neighbour edge) 0 = other) ↔
      ∃ row ∈ kept_rows rows, near row = id ∧ far row = other)
    {v : Nat} {id : Int} (hid : (graph_of_rows rows).external_id v = .ok id) :
    GraphView.degree offsets v = (neighbour_ids rows near far id).length := by
  obtain ⟨hv, rfl⟩ := List.getElem?_eq_some_iff.mp (external_id_eq_ok_iff.mp hid)
  have hperm := (List.perm_ext_iff_of_nodup (h.names_nodup hbounds hdistinct v)
    (List.nodup_dedup _)).mpr fun _ => h.mem_names_iff hbounds hedges hv
  rw [h.degree_eq hrow hfit hids hv, ← List.getD_eq_getElem _ 0 hv, neighbour_ids, ← hperm.length_eq,
    List.length_map]

end Names

theorem degrees_rows (hids : (graph_of_rows rows).vertex_count < 2 ^ 32)
    (hbuild : build_graph_view (graph_of_rows rows) = .ok view) (v : Nat) :
    view.out_degree v = ((graph_of_rows rows).external_id v).map
        (fun id => (neighbour_ids rows (·.source) (·.target) id).length) ∧
      view.in_degree v = ((graph_of_rows rows).external_id v).map
        fun id => (neighbour_ids rows (·.target) (·.source) id).length := by
  have hview := faithful_of_build (simple_graph_of_rows rows).endpoints hbuild
  have hfit := (build_graph_view_ok hbuild).1
  have hsimple := simple_graph_of_rows rows
  have hswapped : ((graph_of_rows rows).edges.map fun edge => (edge.target, edge.source)).Nodup := by
    have hswap := hsimple.distinct.map Prod.swap_injective
    rwa [List.map_map] at hswap
  have hflipped : ∀ id other, (∃ edge ∈ (graph_of_rows rows).edges,
      (graph_of_rows rows).external_ids.getD edge.target 0 = id ∧
      (graph_of_rows rows).external_ids.getD edge.source 0 = other) ↔
        ∃ row ∈ kept_rows rows, row.target = id ∧ row.source = other := by
    intro id other
    have hedges := @exists_edge_iff rows other id
    simpa only [and_comm] using hedges
  by_cases hv : v < (graph_of_rows rows).vertex_count
  · have hid : (graph_of_rows rows).external_id v = .ok (graph_of_rows rows).external_ids[v] :=
      external_id_eq_ok_iff.mpr (List.getElem?_eq_getElem hv)
    have hvalid : view.validate_vertex v = .ok () := if_neg (by rw [hview.vertex_count]; omega)
    rw [GraphView.out_degree, GraphView.in_degree, hvalid, hid]
    exact ⟨congrArg Except.ok (hview.outgoing.degree_rows hsimple.endpoints (fun _ => rfl)
        hfit hids hsimple.distinct exists_edge_iff hid),
      congrArg Except.ok (hview.incoming.degree_rows
        (fun edge hedge => (hsimple.endpoints edge hedge).symm) (fun _ => rfl) hfit hids hswapped
        hflipped hid)⟩
  · have hid : (graph_of_rows rows).external_id v =
        .error (.out_of_range "compact vertex id is out of range") := by
      rw [TemporalGraph.external_id, List.getElem?_eq_none (Nat.not_lt.mp hv)]
    have hinvalid : view.validate_vertex v =
        .error (.out_of_range "compact vertex id is out of range") :=
      if_pos (by rw [hview.vertex_count]; omega)
    rw [GraphView.out_degree, GraphView.in_degree, hinvalid, hid]
    exact ⟨rfl, rfl⟩

end Degrees

section Reading

variable {path : String} {text : List Char} {graph : TemporalGraph} {view : GraphView}

-- What the lookups of a graph and of its view say of the rows of the file.
structure Answers (rows : List RawTemporalEdge) (graph : TemporalGraph) (view : GraphView) : Prop where
  ids : ∀ id vertex, graph.compact_id id = some vertex ↔ graph.external_id vertex = .ok id
  edges : ∀ u v source target, graph.external_id u = .ok source → graph.external_id v = .ok target →
    (graph.find_edge u v).map (·.timestamps) = if row_timestamps rows source target = [] then none
      else some ((row_timestamps rows source target).insertionSort (· ≤ ·))
  bounds : ∀ u v edge, graph.find_edge u v = some edge →
    u < graph.vertex_count ∧ v < graph.vertex_count
  out_degrees : ∀ v, view.out_degree v = (graph.external_id v).map fun id =>
    (neighbour_ids rows (·.source) (·.target) id).length
  in_degrees : ∀ v, view.in_degree v = (graph.external_id v).map fun id =>
    (neighbour_ids rows (·.target) (·.source) id).length

theorem answers_of_rows {rows : List RawTemporalEdge}
    (hids : (graph_of_rows rows).vertex_count < 2 ^ 32)
    (hbuild : build_graph_view (graph_of_rows rows) = .ok view) :
    Answers rows (graph_of_rows rows) view where
  ids _ _ := compact_id_eq_some_iff hids.le
  edges _ _ _ _ hs ht := find_edge_timestamps hs ht
  bounds u v edge hfound := by
    obtain ⟨rfl, rfl⟩ : edge.source = u ∧ edge.target = v := by simpa using List.find?_some hfound
    exact (simple_graph_of_rows rows).endpoints edge (List.mem_of_find?_eq_some hfound)
  out_degrees v := (degrees_rows hids hbuild v).1
  in_degrees v := (degrees_rows hids hbuild v).2

-- A graph read from a file answers from the rows of the file.
theorem read_temporal_graph_answers (h : read_temporal_graph path (some text) = .ok graph)
    (hids : graph.vertex_count < 2 ^ 32) (hbuild : build_graph_view graph = .ok view) :
    ∃ rows, Holds path (is_matrix_market (get_lines text)) (data_lines text) rows ∧
      Answers rows graph view := by
  obtain ⟨rows, hrows, rfl⟩ := read_temporal_graph_rows h hids.le
  exact ⟨rows, hrows, answers_of_rows hids hbuild⟩

theorem read_temporal_graph_answers_sample : ∃ view rows,
    Holds "g.txt" (is_matrix_market (get_lines "7 3 5\n3,7\n7 3 2\n4 4".toList))
      (data_lines "7 3 5\n3,7\n7 3 2\n4 4".toList) rows ∧
    Answers rows ⟨[3, 7], [⟨0, 1, [0]⟩, ⟨1, 0, [2, 5]⟩]⟩ view := by
  have h : read_temporal_graph "g.txt" (some "7 3 5\n3,7\n7 3 2\n4 4".toList) =
      .ok ⟨[3, 7], [⟨0, 1, [0]⟩, ⟨1, 0, [2, 5]⟩]⟩ := by decide
  have hbuild : ∃ view, build_graph_view ⟨[3, 7], [⟨0, 1, [0]⟩, ⟨1, 0, [2, 5]⟩]⟩ = .ok view := ⟨_, rfl⟩
  obtain ⟨view, hbuild⟩ := hbuild
  exact ⟨view, read_temporal_graph_answers h (by decide) hbuild⟩

end Reading

end CycleEnum
