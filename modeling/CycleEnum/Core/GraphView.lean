import CycleEnum.Core.Graph
import CycleEnum.Core.Timestamp
import CycleEnum.Core.VertexLoop
import Mathlib.Data.List.GetD
import Mathlib.Data.List.Perm.Subperm

namespace CycleEnum

structure AdjacencyEntry where
  vertex : Nat
  edge_id : Nat
  timestamp_begin : Nat
  timestamp_end : Nat
deriving DecidableEq, Repr

structure GraphView where
  vertex_count : Nat
  outgoing_offsets : List Nat
  outgoing_edges : List AdjacencyEntry
  incoming_offsets : List Nat
  incoming_edges : List AdjacencyEntry
  timestamps : List Int
deriving DecidableEq, Repr

namespace GraphView

-- The outgoing entries of a vertex as the view holds them, and as the searches read them.
def outgoing_entries (graph : GraphView) (vertex : Nat) : List AdjacencyEntry :=
  stored_row graph.outgoing_offsets graph.outgoing_edges vertex

def outgoing_row (graph : GraphView) (vertex : Nat) : List AdjacencyEntry :=
  narrow_row graph.outgoing_offsets graph.outgoing_edges vertex

def edge_count (graph : GraphView) : Nat := graph.outgoing_edges.length

def timestamp_count (graph : GraphView) : Nat := graph.timestamps.length

end GraphView

def ensure_edge_ids_fit (edge_count : Nat) : Except Error Unit :=
  if edge_count > MAX_EDGE_ID then
    .error (.overflow_error "graph has more logical edges than EdgeId holds")
  else .ok ()

-- The arrays that the loop over the edges fills.
structure Layout where
  timestamps : List Int
  outgoing_by_vertex : List (List AdjacencyEntry)
  incoming_by_vertex : List (List AdjacencyEntry)
  edge_id : Nat

def place_edge (layout : Layout) (edge : TemporalEdge) : Layout :=
  let timestamp_begin := layout.timestamps.length
  let timestamps := layout.timestamps ++ edge.timestamps
  let timestamp_end := timestamps.length
  let outgoing_entry := ⟨edge.target, layout.edge_id, timestamp_begin, timestamp_end⟩
  let incoming_entry := ⟨edge.source, layout.edge_id, timestamp_begin, timestamp_end⟩
  { timestamps
    outgoing_by_vertex := layout.outgoing_by_vertex.modify edge.source (· ++ [outgoing_entry])
    incoming_by_vertex := layout.incoming_by_vertex.modify edge.target (· ++ [incoming_entry])
    edge_id := layout.edge_id + 1 }

def order_entries (lhs rhs : AdjacencyEntry) : Bool :=
  if lhs.vertex ≠ rhs.vertex then lhs.vertex < rhs.vertex else lhs.edge_id < rhs.edge_id

-- `std::sort` with `order_entries`.
def sort_entries (row : List AdjacencyEntry) : List AdjacencyEntry :=
  row.insertionSort fun a b => order_entries b a = false

-- The offsets of the rows in the array of all entries, and that array.
def concat_rows {α : Type} (rows : List (List α)) : List Nat × List α :=
  let filled := rows.foldl (fun (offsets, edges) row => (offsets ++ [edges.length], edges ++ row))
    (([] : List Nat), ([] : List α))
  (filled.1 ++ [filled.2.length], filled.2)

def build_graph_view (graph : TemporalGraph) : Except Error GraphView := do
  ensure_edge_ids_fit graph.edge_count
  let rows := List.replicate graph.vertex_count []
  let layout := graph.edges.foldl place_edge ⟨[], rows, rows, 0⟩
  let outgoing := concat_rows (layout.outgoing_by_vertex.map sort_entries)
  let incoming := concat_rows (layout.incoming_by_vertex.map sort_entries)
  return ⟨graph.vertex_count, outgoing.1, outgoing.2, incoming.1, incoming.2, layout.timestamps⟩

-- The edges with their outgoing entries, numbered and placed in order.
def placed : Nat → Nat → List TemporalEdge → List (TemporalEdge × AdjacencyEntry)
  | _, _, [] => []
  | offset, id, edge :: edges =>
      (edge, ⟨edge.target, id, offset, offset + edge.timestamps.length⟩) ::
        placed (offset + edge.timestamps.length) (id + 1) edges

-- The entries of the edges that leave a vertex.
def leaving (vertex : Nat) (entries : List (TemporalEdge × AdjacencyEntry)) :
    List AdjacencyEntry :=
  (entries.filter (·.1.source = vertex)).map (·.2)

section Layout

-- Every item goes to the end of the row of its key.
def bucketed {α β : Type} (key : β → Nat) (value : β → α) (rows : List (List α)) (items : List β) :
    List (List α) :=
  items.foldl (fun rows item => rows.modify (key item) (· ++ [value item])) rows

theorem bucketed_length {α β : Type} (key : β → Nat) (value : β → α) (rows : List (List α))
    (items : List β) : (bucketed key value rows items).length = rows.length := by
  induction items generalizing rows with
  | nil => rfl
  | cons item items ih => simpa [bucketed] using ih (rows.modify (key item) (· ++ [value item]))

theorem bucketed_getElem? {α β : Type} (key : β → Nat) (value : β → α) (items : List β)
    {rows : List (List α)} {v : Nat} {row : List α} (h : rows[v]? = some row) :
    (bucketed key value rows items)[v]? =
      some (row ++ (items.filter (key · = v)).map value) := by
  induction items generalizing rows row with
  | nil => simpa [bucketed] using h
  | cons item items ih =>
      have hrow : (rows.modify (key item) (· ++ [value item]))[v]? =
          some (if key item = v then row ++ [value item] else row) := by
        by_cases hv : key item = v
        · simp [hv, h]
        · simp [hv, h]
      have hcons := ih hrow
      by_cases hv : key item = v
      · simpa [bucketed, hv] using hcons
      · simpa [bucketed, hv] using hcons

theorem foldl_place_edge (layout : Layout) (edges : List TemporalEdge) :
    edges.foldl place_edge layout =
      { timestamps := layout.timestamps ++ edges.flatMap (·.timestamps)
        outgoing_by_vertex := bucketed (·.1.source) (·.2) layout.outgoing_by_vertex
          (placed layout.timestamps.length layout.edge_id edges)
        incoming_by_vertex := bucketed (·.1.target) (fun (edge, entry) =>
          { entry with vertex := edge.source }) layout.incoming_by_vertex
          (placed layout.timestamps.length layout.edge_id edges)
        edge_id := layout.edge_id + edges.length } := by
  induction edges generalizing layout with
  | nil => simp [placed, bucketed]
  | cons edge edges ih =>
      rw [List.foldl_cons, ih]
      simp [placed, bucketed, place_edge]
      omega

theorem foldl_concat {α : Type} (offsets : List Nat) (edges : List α) (rows : List (List α)) :
    rows.foldl (fun (offsets, edges) row => (offsets ++ [edges.length], edges ++ row))
        (offsets, edges) =
      (offsets ++ (List.range rows.length).map fun v => edges.length + (rows.take v).flatten.length,
        edges ++ rows.flatten) := by
  induction rows generalizing offsets edges with
  | nil => simp
  | cons row rows ih =>
      rw [List.foldl_cons, ih, List.length_cons, List.range_succ_eq_map]
      simp [Nat.add_assoc, Function.comp_def]

theorem concat_rows_eq {α : Type} (rows : List (List α)) :
    concat_rows rows =
      ((List.range (rows.length + 1)).map fun v => (rows.take v).flatten.length, rows.flatten) := by
  simp [concat_rows, foldl_concat, List.range_succ, List.take_of_length_le]

theorem concat_rows_start {α : Type} (rows : List (List α)) : (concat_rows rows).1.getD 0 0 = 0 := by
  rw [concat_rows_eq]
  simp [List.range_succ_eq_map]

-- Cutting the array at the offsets gives back the rows.
theorem extract_concat_rows {α : Type} (rows : List (List α)) (v : Nat) :
    stored_row (concat_rows rows).1 (concat_rows rows).2 v = rows.getD v [] := by
  rw [concat_rows_eq, stored_row]
  by_cases hv : v < rows.length
  · have hdrop : rows.drop v = rows[v] :: rows.drop (v + 1) := List.drop_eq_getElem_cons hv
    have hsplit : rows.flatten = (rows.take v).flatten ++ (rows[v] ++ (rows.drop (v + 1)).flatten) := by
      rw [← List.flatten_cons, ← hdrop, ← List.flatten_append, List.take_append_drop]
    have hnext : (rows.take (v + 1)).flatten.length =
        (rows.take v).flatten.length + rows[v].length := by
      rw [List.take_succ_eq_append_getElem hv, List.flatten_append]
      simp
    have hoff : ∀ u, u ≤ rows.length →
        ((List.range (rows.length + 1)).map fun v => (rows.take v).flatten.length).getD u 0 =
          (rows.take u).flatten.length := by
      intro u hu
      rw [List.getD_eq_getElem _ _ (by simp; omega)]
      simp
    rw [hoff v (by omega), hoff (v + 1) (by omega), hnext, hsplit, List.getD_eq_getElem _ _ hv]
    simp [List.extract]
  · have hend : ((List.range (rows.length + 1)).map fun v => (rows.take v).flatten.length).getD
        (v + 1) 0 = 0 := by
      rw [List.getD_eq_default _ _ (by simp; omega)]
    rw [hend, List.getD_eq_default rows _ (by omega)]
    simp [List.extract]

end Layout

section Placed

theorem leaving_vertices (vertex offset id : Nat) (edges : List TemporalEdge) :
    (leaving vertex (placed offset id edges)).map (·.vertex) =
      (edges.filter (·.source = vertex)).map (·.target) := by
  induction edges generalizing offset id with
  | nil => rfl
  | cons edge edges ih =>
      have ih := ih (offset + edge.timestamps.length) (id + 1)
      by_cases he : edge.source = vertex
      · simpa [placed, leaving, he] using ih
      · simpa [placed, leaving, he] using ih

theorem mem_of_mem_placed {offset id : Nat} {edges : List TemporalEdge} {edge : TemporalEdge}
    {entry : AdjacencyEntry} (h : (edge, entry) ∈ placed offset id edges) : edge ∈ edges := by
  induction edges generalizing offset id with
  | nil => simp [placed] at h
  | cons first edges ih =>
      rcases List.mem_cons.mp h with he | h
      · simp [(Prod.mk.inj he).1]
      · exact List.mem_cons_of_mem _ (ih h)

theorem mem_leaving {vertex offset id : Nat} {edges : List TemporalEdge} {entry : AdjacencyEntry}
    (h : entry ∈ leaving vertex (placed offset id edges)) :
    ∃ edge ∈ edges, edge.source = vertex ∧ (edge, entry) ∈ placed offset id edges := by
  obtain ⟨⟨edge, entry⟩, hm, rfl⟩ := List.mem_map.mp h
  obtain ⟨hm, hs⟩ := List.mem_filter.mp hm
  exact ⟨edge, mem_of_mem_placed hm, by simpa using hs, hm⟩

-- An entry points at its edge's timestamps in the flat array.
theorem placed_slice (before : List Int) (id : Nat) (edges : List TemporalEdge)
    (edge : TemporalEdge) (entry : AdjacencyEntry)
    (h : (edge, entry) ∈ placed before.length id edges) :
    entry.vertex = edge.target ∧ ∃ front back,
      before ++ edges.flatMap (·.timestamps) = front ++ edge.timestamps ++ back ∧
      entry.timestamp_begin = front.length ∧
      entry.timestamp_end = front.length + edge.timestamps.length := by
  induction edges generalizing before id with
  | nil => simp [placed] at h
  | cons first edges ih =>
      rcases List.mem_cons.mp h with he | h
      · obtain ⟨rfl, rfl⟩ := Prod.mk.inj he
        exact ⟨rfl, before, edges.flatMap (·.timestamps), by simp, rfl, rfl⟩
      · have h' : (edge, entry) ∈ placed (before ++ first.timestamps).length (id + 1) edges := by
          simpa using h
        obtain ⟨hv, front, back, hsplit, hb, he⟩ := ih (before ++ first.timestamps) (id + 1) h'
        exact ⟨hv, front, back, by rw [← hsplit]; simp, hb, he⟩

theorem slice_of_split {timestamps front middle back : List Int}
    (hsplit : timestamps = front ++ middle ++ back) (hsorted : middle.Pairwise (· ≤ ·)) :
    Slice timestamps front.length (front.length + middle.length) := by
  refine ⟨by omega, by simp [hsplit], fun i j hi hij hj => ?_⟩
  have hat : ∀ k, front.length ≤ k → (hk : k < front.length + middle.length) →
      timestamp_at timestamps k = middle[k - front.length] := by
    intro k hk₁ hk₂
    rw [timestamp_at, hsplit, List.getD_append _ _ _ _ (by simp; omega),
      List.getD_append_right _ _ _ _ hk₁, List.getD_eq_getElem]
  rw [hat i hi (by omega), hat j (by omega) hj]
  rcases Nat.eq_or_lt_of_le hij with rfl | hlt
  · exact Int.le_refl _
  · exact List.pairwise_iff_getElem.mp hsorted _ _ _ _ (by omega)

end Placed

section Sorting

theorem order_entries_eq_false_iff (a b : AdjacencyEntry) :
    order_entries b a = false ↔
      a.vertex < b.vertex ∨ a.vertex = b.vertex ∧ a.edge_id ≤ b.edge_id := by
  unfold order_entries
  split_ifs with h
  · simp only [decide_eq_false_iff_not]
    omega
  · simp only [decide_eq_false_iff_not]
    omega

theorem sort_entries_pairwise (row : List AdjacencyEntry) :
    (sort_entries row).Pairwise fun a b =>
      a.vertex < b.vertex ∨ a.vertex = b.vertex ∧ a.edge_id ≤ b.edge_id := by
  have htotal : Std.Total fun a b => order_entries b a = false := ⟨fun a b => by
    simp only [order_entries_eq_false_iff]
    omega⟩
  have htrans : IsTrans AdjacencyEntry fun a b => order_entries b a = false := ⟨fun a b c => by
    simp only [order_entries_eq_false_iff]
    omega⟩
  have hsorted := List.pairwise_insertionSort (fun a b => order_entries b a = false) row
  exact hsorted.imp fun {a b} h => (order_entries_eq_false_iff a b).mp h

theorem perm_sort_entries (row : List AdjacencyEntry) : (sort_entries row).Perm row :=
  List.perm_insertionSort _ _

end Sorting

-- What every search relies on. The loops over the vertices end, and every row is read
-- to its end.
structure GraphView.WellFormed (graph : GraphView) : Prop where
  counted : graph.vertex_count < 2 ^ 32
  whole : ∀ v, graph.outgoing_row v = graph.outgoing_entries v
  ascending : ∀ v, (graph.outgoing_row v).Pairwise (·.vertex < ·.vertex)
  no_loop : ∀ v, ∀ entry ∈ graph.outgoing_row v, entry.vertex ≠ v
  bounded : ∀ v, ∀ entry ∈ graph.outgoing_row v,
    v < graph.vertex_count ∧ entry.vertex < graph.vertex_count
  slices : ∀ v, ∀ entry ∈ graph.outgoing_row v,
    Slice graph.timestamps entry.timestamp_begin entry.timestamp_end

-- So the length of a path fits 32 bits.
theorem GraphView.WellFormed.narrow {graph : GraphView} (hw : graph.WellFormed) (vs : List Nat)
    (hvs : vs.Nodup) (hrows : ∀ v ∈ vs, graph.outgoing_row v ≠ []) : vs.length < 2 ^ 32 := by
  have hsub : vs ⊆ List.range graph.vertex_count := by
    intro v hv
    obtain ⟨entry, he⟩ := List.exists_mem_of_ne_nil _ (hrows v hv)
    exact List.mem_range.mpr (hw.bounded v entry he).1
  have hlen := (hvs.subperm hsub).length_le
  rw [List.length_range] at hlen
  exact Nat.lt_of_le_of_lt hlen hw.counted

-- The rows of a view: bucketed by a key, then sorted.
theorem getD_sorted_rows {β : Type} (key : β → Nat) (value : β → AdjacencyEntry) (n v : Nat)
    (items : List β) :
    ((bucketed key value (List.replicate n []) items).map sort_entries).getD v [] =
      if v < n then sort_entries ((items.filter (key · = v)).map value) else [] := by
  split_ifs with hv
  · have hempty : (List.replicate n ([] : List AdjacencyEntry))[v]? = some [] := by simp [hv]
    have hrow := bucketed_getElem? key value items hempty
    simp [List.getD_eq_getElem?_getD, List.getElem?_map, hrow]
  · rw [List.getD_eq_default]
    simpa [bucketed_length] using hv

section Build

variable {graph : TemporalGraph} {view : GraphView}

theorem build_graph_view_ok (h : build_graph_view graph = .ok view) :
    graph.edge_count ≤ MAX_EDGE_ID ∧ view.vertex_count = graph.vertex_count ∧
      view.timestamps = graph.edges.flatMap (·.timestamps) ∧
      view.outgoing_offsets.getD 0 0 = 0 ∧
      ∀ v, view.outgoing_entries v = if v < graph.vertex_count then
        sort_entries (leaving v (placed 0 0 graph.edges)) else [] := by
  by_cases hfit : graph.edge_count > MAX_EDGE_ID
  · simp [build_graph_view, ensure_edge_ids_fit, hfit, bind, Except.bind] at h
  · simp only [build_graph_view, ensure_edge_ids_fit, if_neg hfit, bind, Except.bind, pure,
      Except.pure, Except.ok.injEq] at h
    subst h
    refine ⟨by omega, rfl, by simp [foldl_place_edge], concat_rows_start _, fun v => ?_⟩
    rw [GraphView.outgoing_entries, extract_concat_rows, foldl_place_edge]
    exact getD_sorted_rows _ _ _ _ _

-- Below 2^32 vertices the searches read the whole row.
theorem outgoing_row_eq (h : build_graph_view graph = .ok view) (hids : view.vertex_count < 2 ^ 32)
    (v : Nat) : view.outgoing_row v = view.outgoing_entries v := by
  obtain ⟨-, hn, -, hstart, hrow⟩ := build_graph_view_ok h
  by_cases hlast : v + 1 = 2 ^ 32
  · rw [GraphView.outgoing_row, narrow_row_last hstart hlast, hrow v, if_neg (by omega)]
  · exact narrow_row_eq hlast

-- Every outgoing entry is the one of an edge.
theorem mem_row_placed (h : build_graph_view graph = .ok view) {v : Nat} {entry : AdjacencyEntry}
    (he : entry ∈ view.outgoing_entries v) : ∃ edge ∈ graph.edges,
      v < graph.vertex_count ∧ edge.source = v ∧ (edge, entry) ∈ placed 0 0 graph.edges := by
  obtain ⟨-, -, -, -, hrow⟩ := build_graph_view_ok h
  rw [hrow v] at he
  split_ifs at he with hv
  · obtain ⟨edge, hedge, hsrc, hp⟩ := mem_leaving ((perm_sort_entries _).mem_iff.mp he)
    exact ⟨edge, hedge, hv, hsrc, hp⟩
  · simp at he

theorem bounded_of_build (hends : ∀ edge ∈ graph.edges,
      edge.source < graph.vertex_count ∧ edge.target < graph.vertex_count)
    (h : build_graph_view graph = .ok view) (v : Nat) : ∀ entry ∈ view.outgoing_entries v,
      v < view.vertex_count ∧ entry.vertex < view.vertex_count := by
  intro entry he
  obtain ⟨-, hn, -⟩ := build_graph_view_ok h
  obtain ⟨edge, hedge, hv, -, hp⟩ := mem_row_placed h he
  rw [(placed_slice [] 0 graph.edges edge entry hp).1, hn]
  exact ⟨hv, (hends edge hedge).2⟩

theorem slices_of_build (hsorted : ∀ edge ∈ graph.edges, edge.timestamps.Pairwise (· ≤ ·))
    (h : build_graph_view graph = .ok view) (v : Nat) : ∀ entry ∈ view.outgoing_entries v,
      Slice view.timestamps entry.timestamp_begin entry.timestamp_end := by
  intro entry he
  obtain ⟨-, -, ht, -⟩ := build_graph_view_ok h
  obtain ⟨edge, hedge, -, -, hp⟩ := mem_row_placed h he
  obtain ⟨-, front, back, hsplit, hb, hend⟩ := placed_slice [] 0 graph.edges edge entry hp
  rw [hb, hend]
  exact slice_of_split (by rw [ht, ← hsplit]; simp) (hsorted edge hedge)

theorem ascending_of_build
    (hpairs : (graph.edges.map fun edge => (edge.source, edge.target)).Nodup)
    (h : build_graph_view graph = .ok view) (v : Nat) :
    (view.outgoing_entries v).Pairwise (·.vertex < ·.vertex) := by
  obtain ⟨-, -, -, -, hrow⟩ := build_graph_view_ok h
  rw [hrow v]
  split_ifs
  · have hdistinct : ((sort_entries (leaving v (placed 0 0 graph.edges))).map (·.vertex)).Nodup := by
      rw [((perm_sort_entries _).map _).nodup_iff, leaving_vertices]
      refine List.Nodup.map_on ?_ (hpairs.of_map.filter _)
      intro a ha b hb heq
      obtain ⟨ha, hav⟩ := List.mem_filter.mp ha
      obtain ⟨hb, hbv⟩ := List.mem_filter.mp hb
      apply List.inj_on_of_nodup_map hpairs ha hb
      simp only [decide_eq_true_eq] at hav hbv
      simp [hav, hbv, heq]
    have hne := (List.pairwise_map.mp hdistinct)
    exact ((sort_entries_pairwise _).and hne).imp fun ⟨hle, hn⟩ => by omega
  · exact List.Pairwise.nil

theorem no_loop_of_build (hloops : ∀ edge ∈ graph.edges, edge.source ≠ edge.target)
    (h : build_graph_view graph = .ok view) (v : Nat) :
    ∀ entry ∈ view.outgoing_entries v, entry.vertex ≠ v := by
  intro entry he
  obtain ⟨edge, hedge, -, hsrc, hp⟩ := mem_row_placed h he
  rw [(placed_slice [] 0 graph.edges edge entry hp).1, ← hsrc]
  exact (hloops edge hedge).symm

theorem build_graph_view_well_formed (hs : graph.Simple) (h : build_graph_view graph = .ok view)
    (hids : view.vertex_count < 2 ^ 32) : view.WellFormed where
  counted := hids
  whole := outgoing_row_eq h hids
  ascending v := outgoing_row_eq h hids v ▸ ascending_of_build hs.distinct h v
  no_loop v := outgoing_row_eq h hids v ▸ no_loop_of_build hs.no_loop h v
  bounded v := outgoing_row_eq h hids v ▸ bounded_of_build hs.endpoints h v
  slices v := outgoing_row_eq h hids v ▸ slices_of_build hs.sorted h v

theorem parsed_well_formed {rows : List RawTemporalEdge}
    (h : build_graph_view (graph_of_rows rows) = .ok view) (hids : view.vertex_count < 2 ^ 32) :
    view.WellFormed :=
  build_graph_view_well_formed (simple_graph_of_rows rows) h hids

end Build

end CycleEnum
