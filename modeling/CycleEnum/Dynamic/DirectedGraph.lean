import CycleEnum.Core.GraphView
import CycleEnum.Dynamic.EdgeChange
import CycleEnum.Enumeration.Anchored
import CycleEnum.Sequential.SimpleCycles

namespace CycleEnum.Dynamic

open CycleEnum.Enumeration CycleEnum.Sequential

structure DirectedGraph where
  vertex_count : Nat
  offsets : List Nat
  neighbors : List Nat
deriving DecidableEq, Repr

namespace DirectedGraph

-- The successors of a vertex, and what a loop of a `VertexId` reads of them.
def row (graph : DirectedGraph) (vertex : Nat) : List Nat :=
  stored_row graph.offsets graph.neighbors vertex

def read_row (graph : DirectedGraph) (vertex : Nat) : List Nat :=
  narrow_row graph.offsets graph.neighbors vertex

-- A graph as the updates expect it. A vertex is named by a 32-bit id.
structure WellFormed (graph : DirectedGraph) : Prop where
  offsets_length : graph.offsets.length = graph.vertex_count + 1
  start : graph.offsets.getD 0 0 = 0
  ascending : ∀ v, (graph.row v).Pairwise (· < ·)
  no_loop : ∀ v, v ∉ graph.row v
  bounded : ∀ v, ∀ next ∈ graph.row v, next < graph.vertex_count
  ids : graph.vertex_count < 2 ^ 32

-- What every search relies on: sorted rows of vertices. A row may hold its own vertex.
structure Sorted (graph : DirectedGraph) : Prop where
  offsets_length : graph.offsets.length = graph.vertex_count + 1
  start : graph.offsets.getD 0 0 = 0
  ascending : ∀ v, (graph.row v).Pairwise (· < ·)
  bounded : ∀ v, ∀ next ∈ graph.row v, next < graph.vertex_count
  narrow : ∀ v, ∀ next ∈ graph.row v, next < 2 ^ 32

end DirectedGraph

-- The flags that the loops over the changes set.
def touched (batch : EdgeBatch) (source : Nat) : Bool :=
  batch.deletions.any (·.source = source) || batch.insertions.any (·.source = source)

-- `is_deleted` is a binary search in the sorted deletions.
def rebuilt (base : DirectedGraph) (batch : EdgeBatch) (source : Nat) : List Nat :=
  let kept := (base.row source).filter fun target => ⟨source, target⟩ ∉ batch.deletions
  let added := (batch.insertions.filter (·.source = source)).map (·.target)
  unique ((kept ++ added).insertionSort (· ≤ ·))

def apply_batch (base : DirectedGraph) (batch : EdgeBatch) : DirectedGraph :=
  let rows := (List.range base.vertex_count).map fun source =>
    if touched batch source then rebuilt base batch source else base.row source
  let (offsets, neighbors) := concat_rows rows
  ⟨base.vertex_count, offsets, neighbors⟩

-- The graph that `to_graph_view` passes on, with one timestamp an edge. The source of an
-- edge is cast to 32 bits.
def temporal_graph (graph : DirectedGraph) : TemporalGraph where
  external_ids := (List.range graph.vertex_count).map Int.ofNat
  edges := (List.range graph.vertex_count).flatMap fun source =>
    (graph.row source).map fun target => ⟨source % 2 ^ 32, target, [0]⟩

def to_graph_view (graph : DirectedGraph) : Except Error GraphView :=
  build_graph_view (temporal_graph graph)

-- Changes that fit a graph: between vertices, deletions of edges, insertions of
-- edges that are missing or deleted by the same batch.
structure EdgeBatch.Fits (batch : EdgeBatch) (graph : DirectedGraph) : Prop where
  vertices : ∀ change ∈ batch.deletions ++ batch.insertions,
    change.source < graph.vertex_count ∧ change.target < graph.vertex_count
  no_loop : ∀ change ∈ batch.deletions ++ batch.insertions, change.source ≠ change.target
  deletions : ∀ change ∈ batch.deletions, change.target ∈ graph.row change.source
  insertions : ∀ change ∈ batch.insertions,
    change.target ∉ graph.row change.source ∨ change ∈ batch.deletions

variable {graph : DirectedGraph} {batch : EdgeBatch}

namespace DirectedGraph

theorem row_eq_nil (hlength : graph.offsets.length = graph.vertex_count + 1) {v : Nat}
    (hv : graph.vertex_count ≤ v) : graph.row v = [] := by
  have hend : graph.offsets.getD (v + 1) 0 = 0 := by
    rw [List.getD_eq_default]
    omega
  rw [row, stored_row, hend]
  simp [List.extract]

-- A loop of a `VertexId` reads a row or, at the last id, nothing.
theorem mem_row_of_read (hstart : graph.offsets.getD 0 0 = 0) {v next : Nat}
    (h : next ∈ graph.read_row v) : next ∈ graph.row v := mem_stored_row hstart h

theorem read_row_eq (hlength : graph.offsets.length = graph.vertex_count + 1)
    (hstart : graph.offsets.getD 0 0 = 0) (hids : graph.vertex_count < 2 ^ 32) :
    graph.read_row = graph.row :=
  funext fun v => narrow_row_of_length hstart (by omega) v

theorem Sorted.whole (hg : graph.Sorted) (hids : graph.vertex_count < 2 ^ 32) :
    graph.read_row = graph.row := read_row_eq hg.offsets_length hg.start hids

theorem Sorted.read_nodup (hg : graph.Sorted) (v : Nat) : (graph.read_row v).Nodup := by
  by_cases hlast : v + 1 = 2 ^ 32
  · rw [read_row, narrow_row_last hg.start hlast]
    exact List.nodup_nil
  · rw [read_row, narrow_row_eq hlast]
    exact (hg.ascending v).imp Nat.ne_of_lt

theorem Sorted.read_bounded (hg : graph.Sorted) (v next : Nat) (h : next ∈ graph.read_row v) :
    next < graph.vertex_count := hg.bounded v next (mem_row_of_read hg.start h)

-- What every row holds is among the neighbours.
theorem row_bounded (h : ∀ next ∈ graph.neighbors, next < graph.vertex_count) (v next : Nat)
    (hn : next ∈ graph.row v) : next < graph.vertex_count := by
  rw [row, stored_row, List.extract_eq_take_drop] at hn
  exact h next (List.mem_of_mem_drop (List.mem_of_mem_take hn))

theorem read_row_bounded (h : ∀ next ∈ graph.neighbors, next < graph.vertex_count) (v next : Nat)
    (hn : next ∈ graph.read_row v) : next < graph.vertex_count := by
  rw [read_row, narrow_row, List.extract_eq_take_drop] at hn
  exact h next (List.mem_of_mem_drop (List.mem_of_mem_take hn))

theorem WellFormed.row_eq_nil (hg : graph.WellFormed) {v : Nat} (hv : graph.vertex_count ≤ v) :
    graph.row v = [] := DirectedGraph.row_eq_nil hg.offsets_length hv

theorem WellFormed.source_lt (hg : graph.WellFormed) {v next : Nat} (h : next ∈ graph.row v) :
    v < graph.vertex_count := by
  by_contra hv
  rw [hg.row_eq_nil (by omega)] at h
  simp at h

theorem Sorted.row_nodup (hg : graph.Sorted) (v : Nat) : (graph.row v).Nodup :=
  (hg.ascending v).imp Nat.ne_of_lt

-- Only the rows of vertices matter.
theorem sorted_of_rows (hlength : graph.offsets.length = graph.vertex_count + 1)
    (hstart : graph.offsets.getD 0 0 = 0)
    (hrows : ∀ v < graph.vertex_count, (graph.row v).Pairwise (· < ·) ∧
      ∀ next ∈ graph.row v, next < graph.vertex_count) (hids : graph.vertex_count ≤ 2 ^ 32) :
    graph.Sorted := by
  have hvertex : ∀ v, ∀ next ∈ graph.row v, v < graph.vertex_count := by
    intro v next hn
    by_contra hv
    rw [row_eq_nil hlength (by omega)] at hn
    cases hn
  refine ⟨hlength, hstart, fun v => ?_, fun v next hn => ?_, fun v next hn => ?_⟩
  · by_cases hv : v < graph.vertex_count
    · exact (hrows v hv).1
    · rw [row_eq_nil hlength (by omega)]
      exact List.Pairwise.nil
  · exact (hrows v (hvertex v next hn)).2 next hn
  · exact lt_of_lt_of_le ((hrows v (hvertex v next hn)).2 next hn) hids

theorem WellFormed.sorted (hg : graph.WellFormed) : graph.Sorted :=
  ⟨hg.offsets_length, hg.start, hg.ascending, hg.bounded,
    fun v next hn => (hg.bounded v next hn).trans hg.ids⟩

theorem WellFormed.row_nodup (hg : graph.WellFormed) (v : Nat) : (graph.row v).Nodup :=
  hg.sorted.row_nodup v

end DirectedGraph

@[simp] theorem apply_batch_vertex_count (base : DirectedGraph) (batch : EdgeBatch) :
    (apply_batch base batch).vertex_count = base.vertex_count := rfl

@[simp] theorem apply_batch_start (base : DirectedGraph) (batch : EdgeBatch) :
    (apply_batch base batch).offsets.getD 0 0 = 0 := by
  simp [apply_batch, concat_rows_eq]

theorem apply_batch_length (base : DirectedGraph) (batch : EdgeBatch) :
    (apply_batch base batch).offsets.length = base.vertex_count + 1 := by
  simp [apply_batch, concat_rows_eq]

theorem apply_batch_row (base : DirectedGraph) (batch : EdgeBatch) (v : Nat) :
    (apply_batch base batch).row v = if v < base.vertex_count then
      if touched batch v then rebuilt base batch v else base.row v else [] := by
  rw [DirectedGraph.row, apply_batch]
  dsimp only
  rw [extract_concat_rows]
  split_ifs with hv ht
  · rw [List.getD_eq_getElem _ _ (by simpa using hv)]
    simp [ht]
  · rw [List.getD_eq_getElem _ _ (by simpa using hv)]
    simp [ht]
  · rw [List.getD_eq_default _ _ (by simpa using hv)]

theorem mem_rebuilt {base : DirectedGraph} {source target : Nat} :
    target ∈ rebuilt base batch source ↔
      (target ∈ base.row source ∧ ⟨source, target⟩ ∉ batch.deletions) ∨
        ⟨source, target⟩ ∈ batch.insertions := by
  have hadded : target ∈ (batch.insertions.filter (·.source = source)).map (·.target) ↔
      ⟨source, target⟩ ∈ batch.insertions := by
    simp only [List.mem_map, List.mem_filter, decide_eq_true_eq]
    constructor
    · rintro ⟨⟨s, t⟩, ⟨hm, rfl⟩, rfl⟩
      exact hm
    · exact fun hm => ⟨⟨source, target⟩, ⟨hm, rfl⟩, rfl⟩
  rw [rebuilt, mem_unique, List.mem_insertionSort, List.mem_append, hadded, List.mem_filter,
    decide_eq_true_eq]

theorem not_mem_of_not_touched {source : Nat} (target : Nat) (h : ¬touched batch source = true) :
    ⟨source, target⟩ ∉ batch.deletions ∧ ⟨source, target⟩ ∉ batch.insertions := by
  simp only [touched, Bool.or_eq_true, List.any_eq_true, decide_eq_true_eq, not_or, not_exists,
    not_and] at h
  exact ⟨fun hm => h.1 _ hm rfl, fun hm => h.2 _ hm rfl⟩

-- The edges after a batch whose insertions are at vertices.
theorem mem_apply_batch_iff (hlength : graph.offsets.length = graph.vertex_count + 1)
    (hb : ∀ change ∈ batch.insertions, change.source < graph.vertex_count) {a b : Nat} :
    b ∈ (apply_batch graph batch).row a ↔
      (b ∈ graph.row a ∧ ⟨a, b⟩ ∉ batch.deletions) ∨ ⟨a, b⟩ ∈ batch.insertions := by
  rw [apply_batch_row]
  split_ifs with ha ht
  · exact mem_rebuilt
  · obtain ⟨hdel, hins⟩ := not_mem_of_not_touched b ht
    simp [hdel, hins]
  · have hins : ⟨a, b⟩ ∉ batch.insertions := fun hm => ha (hb ⟨a, b⟩ hm)
    simp [DirectedGraph.row_eq_nil hlength (Nat.le_of_not_lt ha), hins]

theorem mem_apply_batch (hg : graph.WellFormed) (hb : batch.Fits graph) {a b : Nat} :
    b ∈ (apply_batch graph batch).row a ↔
      (b ∈ graph.row a ∧ ⟨a, b⟩ ∉ batch.deletions) ∨ ⟨a, b⟩ ∈ batch.insertions :=
  mem_apply_batch_iff hg.offsets_length fun change hm =>
    (hb.vertices change (List.mem_append_right _ hm)).1

theorem apply_batch_ascending (hg : graph.WellFormed) (batch : EdgeBatch) (v : Nat) :
    ((apply_batch graph batch).row v).Pairwise (· < ·) := by
  rw [apply_batch_row]
  split_ifs
  · exact unique_pairwise (fun a b => Nat.lt_of_le_of_ne) (List.pairwise_insertionSort _ _)
  · exact hg.ascending v
  · exact List.Pairwise.nil

theorem apply_batch_well_formed (hg : graph.WellFormed) (hb : batch.Fits graph) :
    (apply_batch graph batch).WellFormed where
  offsets_length := apply_batch_length graph batch
  start := apply_batch_start graph batch
  ascending := apply_batch_ascending hg batch
  no_loop v hv := by
    rcases (mem_apply_batch hg hb).mp hv with ⟨hm, -⟩ | hm
    · exact hg.no_loop v hm
    · exact hb.no_loop ⟨v, v⟩ (List.mem_append_right _ hm) rfl
  bounded v next hn := by
    rcases (mem_apply_batch hg hb).mp hn with ⟨hm, -⟩ | hm
    · exact hg.bounded v next hm
    · exact (hb.vertices ⟨v, next⟩ (List.mem_append_right _ hm)).2
  ids := hg.ids

-- A normalized batch has the changes of the batch.
theorem normalize_fits (hb : batch.Fits graph) : (normalize batch).Fits graph where
  vertices change hc := hb.vertices change (by simpa [normalize] using hc)
  no_loop change hc := hb.no_loop change (by simpa [normalize] using hc)
  deletions change hc := hb.deletions change (by simpa [normalize] using hc)
  insertions change hc := by
    simpa [normalize] using hb.insertions change (by simpa [normalize] using hc)

-- Off the changes the two graphs have the same edges.
theorem unchanged_edge_iff (hg : graph.WellFormed) (hb : batch.Fits graph) (a b : Nat) :
    b ∈ graph.row a ∧ ⟨a, b⟩ ∉ batch.deletions ↔
      b ∈ (apply_batch graph batch).row a ∧ ⟨a, b⟩ ∉ batch.insertions := by
  rw [mem_apply_batch hg hb]
  constructor
  · rintro ⟨hm, hdel⟩
    refine ⟨Or.inl ⟨hm, hdel⟩, fun hins => ?_⟩
    exact (hb.insertions _ hins).elim (fun hno => hno hm) hdel
  · rintro ⟨hm | hm, hins⟩
    · exact hm
    · exact absurd hm hins

section View

theorem temporal_graph_vertex_count (graph : DirectedGraph) :
    (temporal_graph graph).vertex_count = graph.vertex_count := by
  simp [temporal_graph, TemporalGraph.vertex_count]

theorem temporal_graph_edges (hids : graph.vertex_count < 2 ^ 32) :
    (temporal_graph graph).edges = (List.range graph.vertex_count).flatMap fun source =>
      (graph.row source).map fun target => ⟨source, target, [0]⟩ := by
  refine List.flatMap_congr fun source hs => ?_
  have hlt : source < 2 ^ 32 := (List.mem_range.mp hs).trans hids
  rw [Nat.mod_eq_of_lt hlt]

theorem mem_temporal_graph_edges (hids : graph.vertex_count < 2 ^ 32) {edge : TemporalEdge} :
    edge ∈ (temporal_graph graph).edges ↔ ∃ source < graph.vertex_count,
      ∃ target ∈ graph.row source, ⟨source, target, [0]⟩ = edge := by
  simp only [temporal_graph_edges hids, List.mem_flatMap, List.mem_range, List.mem_map]

theorem temporal_graph_simple (hg : graph.WellFormed) : (temporal_graph graph).Simple where
  endpoints edge he := by
    obtain ⟨source, hs, target, ht, rfl⟩ := (mem_temporal_graph_edges hg.ids).mp he
    rw [temporal_graph_vertex_count]
    exact ⟨hs, hg.bounded source target ht⟩
  no_loop edge he := by
    obtain ⟨source, hs, target, ht, rfl⟩ := (mem_temporal_graph_edges hg.ids).mp he
    exact fun heq => hg.no_loop target ((show source = target from heq) ▸ ht)
  distinct := by
    rw [temporal_graph_edges hg.ids, List.map_flatMap]
    refine List.nodup_flatMap.mpr ⟨fun source _ => ?_, ?_⟩
    · rw [List.map_map]
      exact (hg.row_nodup source).map fun a b h => (Prod.mk.inj h).2
    · refine List.nodup_range.imp fun {a b} hne arc ha hb => hne ?_
      simp only [List.mem_map] at ha hb
      obtain ⟨_, ⟨_, -, rfl⟩, rfl⟩ := ha
      obtain ⟨_, ⟨_, -, rfl⟩, he⟩ := hb
      exact (Prod.mk.inj he).1.symm
  sorted edge he := by
    obtain ⟨source, hs, target, ht, rfl⟩ := (mem_temporal_graph_edges hg.ids).mp he
    exact List.pairwise_singleton _ _

theorem to_graph_view_well_formed (hg : graph.WellFormed) {view : GraphView}
    (h : to_graph_view graph = .ok view) : view.WellFormed :=
  build_graph_view_well_formed (temporal_graph_simple hg) h
    ((build_graph_view_ok h).2.1.trans_lt ((temporal_graph_vertex_count graph).trans_lt hg.ids))

-- The view has the edges of the graph.
theorem arc_iff (hg : graph.WellFormed) {view : GraphView} (h : to_graph_view graph = .ok view)
    (a b : Nat) : Arc view a b ↔ b ∈ graph.row a := by
  obtain ⟨-, -, -, -, hrow⟩ := build_graph_view_ok h
  have hvertices : Arc view a b ↔ b ∈ (view.outgoing_entries a).map (·.vertex) := by
    simp [Arc]
  have hsorted : ∀ entries : List AdjacencyEntry,
      b ∈ (sort_entries entries).map (·.vertex) ↔ b ∈ entries.map (·.vertex) := fun entries =>
    ((perm_sort_entries entries).map _).mem_iff
  rw [hvertices, hrow, temporal_graph_vertex_count]
  split_ifs with ha
  · rw [hsorted, leaving_vertices]
    simp only [List.mem_map, List.mem_filter, mem_temporal_graph_edges hg.ids, decide_eq_true_eq]
    constructor
    · rintro ⟨_, ⟨⟨source, -, target, ht, rfl⟩, rfl⟩, rfl⟩
      exact ht
    · exact fun hb => ⟨⟨a, b, [0]⟩, ⟨⟨a, hg.source_lt hb, b, hb, rfl⟩, rfl⟩, rfl⟩
  · simp [hg.row_eq_nil (Nat.le_of_not_lt ha)]

theorem simple_cycles_eq (hg : graph.WellFormed) {view : GraphView}
    (h : to_graph_view graph = .ok view) (k : Nat) :
    simple_cycles view k = cycles_of (fun a b => b ∈ graph.row a) k := by
  have harc : Arc view = fun a b => b ∈ graph.row a := by
    funext a b
    exact propext (arc_iff hg h a b)
  rw [simple_cycles, harc, cycles_of]

end View

end CycleEnum.Dynamic
