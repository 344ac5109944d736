import CycleEnum.Core.GraphView

namespace CycleEnum

namespace GraphView

-- The incoming entries of a vertex as the view holds them, and as a search reads them.
def incoming_entries (graph : GraphView) (vertex : Nat) : List AdjacencyEntry :=
  stored_row graph.incoming_offsets graph.incoming_edges vertex

def incoming_row (graph : GraphView) (vertex : Nat) : List AdjacencyEntry :=
  narrow_row graph.incoming_offsets graph.incoming_edges vertex

end GraphView

-- Where the timestamps of edge `i` begin when all edges' lists stand in a row.
def timestamp_offset (graph : TemporalGraph) (i : Nat) : Nat :=
  ((graph.edges.take i).map fun edge => edge.timestamps.length).sum

-- The rows of both directions, before they are put in one array.
def outgoing_rows (graph : TemporalGraph) : List (List AdjacencyEntry) :=
  (bucketed (·.1.source) (·.2) (List.replicate graph.vertex_count [])
    (placed 0 0 graph.edges)).map sort_entries

def incoming_rows (graph : TemporalGraph) : List (List AdjacencyEntry) :=
  (bucketed (·.1.target) (fun (edge, entry) => { entry with vertex := edge.source })
    (List.replicate graph.vertex_count []) (placed 0 0 graph.edges)).map sort_entries

-- Offsets that cut `size` entries into the rows of `n` vertices.
structure Offsets (offsets : List Nat) (n size : Nat) : Prop where
  length : offsets.length = n + 1
  start : offsets[0]? = some 0
  ascending : offsets.Pairwise (· ≤ ·)
  finish : offsets[n]? = some size

theorem Offsets.getD_start {offsets : List Nat} {n size : Nat} (h : Offsets offsets n size) :
    offsets.getD 0 0 = 0 := by
  rw [List.getD_eq_getElem?_getD, h.start]
  rfl

theorem Offsets.getD_le {offsets : List Nat} {n size : Nat} (h : Offsets offsets n size) {a b : Nat}
    (hab : a ≤ b) (hb : b ≤ n) : offsets.getD a 0 ≤ offsets.getD b 0 := by
  have hlen := h.length
  have hla : a < offsets.length := by omega
  have hlb : b < offsets.length := by omega
  rw [List.getD_eq_getElem _ _ hla, List.getD_eq_getElem _ _ hlb]
  rcases Nat.lt_or_eq_of_le hab with hlt | rfl
  · exact List.pairwise_iff_getElem.mp h.ascending a b hla hlb hlt
  · exact Nat.le_refl _

-- One of the two directions of a view. Edge `i` has the key `key edge`, its entry
-- names the vertex `neighbour edge`.
structure Direction (graph : TemporalGraph) (offsets : List Nat) (edges : List AdjacencyEntry)
    (row : Nat → List AdjacencyEntry) (key neighbour : TemporalEdge → Nat) : Prop where
  offsets : Offsets offsets graph.vertex_count edges.length
  size : edges.length = graph.edge_count
  once : ∀ i edge, graph.edges[i]? = some edge → ∀ v, (row v).filter (·.edge_id = i) =
    if v = key edge then
      [⟨neighbour edge, i, timestamp_offset graph i, timestamp_offset graph (i + 1)⟩]
    else []
  numbered : ∀ v, ∀ entry ∈ row v, entry.edge_id < graph.edge_count
  sorted : ∀ v, (row v).Pairwise fun a b =>
    a.vertex < b.vertex ∨ a.vertex = b.vertex ∧ a.edge_id < b.edge_id

structure GraphView.Faithful (graph : TemporalGraph) (view : GraphView) : Prop where
  vertex_count : view.vertex_count = graph.vertex_count
  outgoing : Direction graph view.outgoing_offsets view.outgoing_edges view.outgoing_entries
    (·.source) (·.target)
  incoming : Direction graph view.incoming_offsets view.incoming_edges view.incoming_entries
    (·.target) (·.source)
  slices : ∀ i edge, graph.edges[i]? = some edge →
    view.timestamps.extract (timestamp_offset graph i) (timestamp_offset graph (i + 1)) =
      edge.timestamps
  partition : ∀ offset < view.timestamp_count, ∃! i, i < graph.edge_count ∧
    timestamp_offset graph i ≤ offset ∧ offset < timestamp_offset graph (i + 1)

section Placed

theorem placed_ids (offset id : Nat) (edges : List TemporalEdge) :
    (placed offset id edges).map (·.2.edge_id) = List.range' id edges.length := by
  induction edges generalizing offset id with
  | nil => rfl
  | cons edge edges ih => simp [placed, ih, List.range'_succ]

theorem mem_placed_id {offset id : Nat} {edges : List TemporalEdge} {edge : TemporalEdge}
    {entry : AdjacencyEntry} (h : (edge, entry) ∈ placed offset id edges) :
    id ≤ entry.edge_id ∧ entry.edge_id < id + edges.length := by
  have hid : entry.edge_id ∈ (placed offset id edges).map (·.2.edge_id) :=
    List.mem_map.mpr ⟨_, h, rfl⟩
  simpa [placed_ids, List.mem_range'_1] using hid

theorem filter_placed (offset id : Nat) {i : Nat} {edges : List TemporalEdge} {edge : TemporalEdge}
    (h : edges[i]? = some edge) :
    (placed offset id edges).filter (·.2.edge_id = id + i) =
      [(edge, ⟨edge.target, id + i,
        offset + ((edges.take i).map fun edge => edge.timestamps.length).sum,
        offset + ((edges.take (i + 1)).map fun edge => edge.timestamps.length).sum⟩)] := by
  induction edges generalizing offset id i with
  | nil => simp at h
  | cons first edges ih =>
      cases i with
      | zero =>
          obtain rfl : first = edge := by simpa using h
          have hlater : (placed (offset + first.timestamps.length) (id + 1) edges).filter
              (·.2.edge_id = id + 0) = [] := by
            refine List.filter_eq_nil_iff.mpr fun ⟨edge, entry⟩ hm => ?_
            have hid := (mem_placed_id hm).1
            simp only [decide_eq_true_eq]
            omega
          rw [placed, List.filter_cons_of_pos (by simp), hlater]
          simp
      | succ i =>
          have hnext := ih (offset + first.timestamps.length) (id + 1) (i := i) (by simpa using h)
          rw [show id + 1 + i = id + (i + 1) by omega] at hnext
          rw [placed, List.filter_cons_of_neg (by simp), hnext]
          simp [Nat.add_assoc]

-- Both directions hold an entry for each edge, under the vertex the edge leaves
-- or reaches.
theorem filter_bucket {graph : TemporalGraph} {i : Nat} {edge : TemporalEdge}
    (h : graph.edges[i]? = some edge) (key : TemporalEdge → Nat)
    (value : TemporalEdge × AdjacencyEntry → AdjacencyEntry) (v : Nat)
    (hid : ∀ item, (value item).edge_id = item.2.edge_id) :
    (((placed 0 0 graph.edges).filter (key ·.1 = v)).map value).filter (·.edge_id = i) =
      if v = key edge then
        [value (edge, ⟨edge.target, i, timestamp_offset graph i, timestamp_offset graph (i + 1)⟩)]
      else [] := by
  have hone := filter_placed 0 0 h
  simp only [Nat.zero_add] at hone
  rw [List.filter_map, List.filter_filter]
  have hswap : (placed 0 0 graph.edges).filter (fun item =>
      ((fun entry : AdjacencyEntry => decide (entry.edge_id = i)) ∘ value) item &&
        decide (key item.1 = v)) =
      ((placed 0 0 graph.edges).filter (·.2.edge_id = i)).filter (key ·.1 = v) := by
    rw [List.filter_filter]
    refine List.filter_congr fun item _ => ?_
    simp [hid, Bool.and_comm]
  rw [hswap, hone]
  by_cases hv : v = key edge
  · simp [hv, timestamp_offset]
  · simp [hv, Ne.symm hv]

end Placed

section Offsets

theorem concat_rows_offsets {α : Type} (rows : List (List α)) :
    Offsets (concat_rows rows).1 rows.length (concat_rows rows).2.length := by
  rw [concat_rows_eq]
  refine ⟨by simp, by simp, ?_, ?_⟩
  · refine List.pairwise_map.mpr (List.pairwise_lt_range.imp fun {u v} huv => ?_)
    obtain ⟨between, hsplit⟩ := List.take_prefix_take_left (l := rows) (Nat.le_of_lt huv)
    rw [← hsplit, List.flatten_append, List.length_append]
    omega
  · rw [List.getElem?_map, List.getElem?_range (by omega), Option.map_some, List.take_length]

theorem length_flatten_modify {α : Type} (rows : List (List α)) (k : Nat) (item : α)
    (hk : k < rows.length) :
    (rows.modify k (· ++ [item])).flatten.length = rows.flatten.length + 1 := by
  induction rows generalizing k with
  | nil => simp at hk
  | cons row rows ih =>
      cases k with
      | zero =>
          simp
          omega
      | succ k =>
          have ih := ih k (by simpa using hk)
          simp only [List.modify_succ_cons, List.flatten_cons, List.length_append, ih]
          omega

theorem length_flatten_bucketed {α β : Type} (key : β → Nat) (value : β → α)
    (rows : List (List α)) (items : List β) (h : ∀ item ∈ items, key item < rows.length) :
    (bucketed key value rows items).flatten.length = rows.flatten.length + items.length := by
  induction items generalizing rows with
  | nil => simp [bucketed]
  | cons item items ih =>
      have hrows := ih (rows.modify (key item) (· ++ [value item])) fun other ho => by
        simpa using h other (List.mem_cons_of_mem _ ho)
      rw [length_flatten_modify _ _ _ (h item (by simp))] at hrows
      simp only [bucketed, List.foldl_cons, List.length_cons] at hrows ⊢
      omega

theorem length_flatten_sorted (rows : List (List AdjacencyEntry)) :
    (rows.map sort_entries).flatten.length = rows.flatten.length := by
  induction rows with
  | nil => rfl
  | cons row rows ih => simp [ih, (perm_sort_entries row).length_eq]

end Offsets

section Build

variable {graph : TemporalGraph}

theorem direction_of_buckets (key neighbour : TemporalEdge → Nat)
    (value : TemporalEdge × AdjacencyEntry → AdjacencyEntry)
    (hid : ∀ item, (value item).edge_id = item.2.edge_id)
    (hvalue : ∀ edge entry, entry.vertex = edge.target → value (edge, entry) =
      { entry with vertex := neighbour edge })
    (hkey : ∀ edge ∈ graph.edges, key edge < graph.vertex_count) :
    let rows := (bucketed (key ·.1) value (List.replicate graph.vertex_count [])
      (placed 0 0 graph.edges)).map sort_entries
    Direction graph (concat_rows rows).1 (concat_rows rows).2
      (stored_row (concat_rows rows).1 (concat_rows rows).2) key neighbour := by
  intro rows
  have hrow : ∀ v, stored_row (concat_rows rows).1 (concat_rows rows).2 v =
      if v < graph.vertex_count then
        sort_entries (((placed 0 0 graph.edges).filter (key ·.1 = v)).map value) else [] := by
    intro v
    rw [extract_concat_rows]
    exact getD_sorted_rows _ _ _ _ _
  have hplaced : (placed 0 0 graph.edges).length = graph.edge_count := by
    have hlen := congrArg List.length (placed_ids 0 0 graph.edges)
    simpa [TemporalGraph.edge_count] using hlen
  refine ⟨?_, ?_, fun i edge h v => ?_, fun v entry he => ?_, fun v => ?_⟩
  · have hrows : rows.length = graph.vertex_count := by simp [rows, bucketed_length]
    rw [← hrows]
    exact concat_rows_offsets rows
  · rw [concat_rows_eq, length_flatten_sorted, length_flatten_bucketed, hplaced]
    · simp
    · intro item hm
      simpa using hkey item.1 (mem_of_mem_placed hm)
  · have hfilter := filter_bucket h key value v hid
    have hv : v = key edge → v < graph.vertex_count := fun hv => by
      rw [hv]
      exact hkey edge (List.mem_of_getElem? h)
    rw [hrow v]
    by_cases hlt : v < graph.vertex_count
    · rw [if_pos hlt]
      have hperm := (perm_sort_entries
        (((placed 0 0 graph.edges).filter (key ·.1 = v)).map value)).filter (·.edge_id = i)
      rw [hfilter] at hperm
      split_ifs at hperm ⊢ with hk
      · rw [List.perm_singleton.mp hperm, hvalue _ _ rfl]
      · exact List.perm_nil.mp hperm
    · rw [if_neg hlt, if_neg fun hk => hlt (hv hk), List.filter_nil]
  · rw [hrow v] at he
    split_ifs at he
    · obtain ⟨⟨edge, placed_entry⟩, hm, rfl⟩ :=
        List.mem_map.mp ((perm_sort_entries _).mem_iff.mp he)
      have hlt := (mem_placed_id (List.mem_filter.mp hm).1).2
      rw [hid]
      simpa [TemporalGraph.edge_count] using hlt
    · simp at he
  · rw [hrow v]
    split_ifs
    · have hnodup : ((sort_entries (((placed 0 0 graph.edges).filter (key ·.1 = v)).map
          value)).map (·.edge_id)).Nodup := by
        rw [((perm_sort_entries _).map _).nodup_iff, List.map_map]
        have hids : ((·.edge_id) ∘ value : TemporalEdge × AdjacencyEntry → Nat) =
            fun item => item.2.edge_id := funext hid
        rw [hids]
        refine List.Nodup.sublist (List.filter_sublist.map _) ?_
        rw [placed_ids]
        exact List.nodup_range'
      refine ((sort_entries_pairwise _).and (List.pairwise_map.mp hnodup)).imp fun hboth => ?_
      obtain ⟨hle, hne⟩ := hboth
      omega
    · exact List.Pairwise.nil

theorem timestamp_offset_succ {i : Nat} {edge : TemporalEdge} (h : graph.edges[i]? = some edge) :
    timestamp_offset graph (i + 1) = timestamp_offset graph i + edge.timestamps.length := by
  obtain ⟨hi, rfl⟩ := List.getElem?_eq_some_iff.mp h
  rw [timestamp_offset, timestamp_offset, List.take_succ_eq_append_getElem hi, List.map_append,
    List.sum_append]
  simp

theorem timestamp_offset_le (graph : TemporalGraph) {i j : Nat} (h : i ≤ j) :
    timestamp_offset graph i ≤ timestamp_offset graph j := by
  obtain ⟨between, hsplit⟩ := List.take_prefix_take_left (l := graph.edges) h
  rw [timestamp_offset, timestamp_offset, ← hsplit, List.map_append, List.sum_append]
  omega

theorem extract_timestamps {i : Nat} {edge : TemporalEdge} (h : graph.edges[i]? = some edge) :
    (graph.edges.flatMap (·.timestamps)).extract (timestamp_offset graph i)
      (timestamp_offset graph (i + 1)) = edge.timestamps := by
  obtain ⟨hi, he⟩ := List.getElem?_eq_some_iff.mp h
  have hsplit : graph.edges.flatMap (·.timestamps) = (graph.edges.take i).flatMap (·.timestamps) ++
      (edge.timestamps ++ (graph.edges.drop (i + 1)).flatMap (·.timestamps)) := by
    rw [← he, ← List.flatMap_cons, ← List.drop_eq_getElem_cons hi, ← List.flatMap_append,
      List.take_append_drop]
  have hlen : ((graph.edges.take i).flatMap (·.timestamps)).length = timestamp_offset graph i := by
    simp [timestamp_offset, List.length_flatMap]
  rw [timestamp_offset_succ h, hsplit, ← hlen]
  simp [List.extract]

-- The ranges of the edges follow one another without a gap.
theorem exists_range {offset : Nat} (h : offset < timestamp_offset graph graph.edge_count) :
    ∃! i, i < graph.edge_count ∧ timestamp_offset graph i ≤ offset ∧
      offset < timestamp_offset graph (i + 1) := by
  obtain ⟨i, hi, hle, hlt⟩ : ∃ i, i < graph.edge_count ∧ timestamp_offset graph i ≤ offset ∧
      offset < timestamp_offset graph (i + 1) := by
    have hpos := h
    generalize graph.edge_count = count at h ⊢
    induction count with
    | zero => simp [timestamp_offset] at h
    | succ count ih =>
        rcases Nat.lt_or_ge offset (timestamp_offset graph count) with hlt | hle
        · obtain ⟨i, hi, hrange⟩ := ih hlt
          exact ⟨i, by omega, hrange⟩
        · exact ⟨count, by omega, hle, h⟩
  refine ⟨i, ⟨hi, hle, hlt⟩, fun j ⟨_, hle', hlt'⟩ => ?_⟩
  rcases Nat.lt_trichotomy j i with hji | rfl | hij
  · have hmono := timestamp_offset_le graph (show j + 1 ≤ i by omega)
    omega
  · rfl
  · have hmono := timestamp_offset_le graph (show i + 1 ≤ j by omega)
    omega

theorem build_graph_view_eq (hfit : graph.edge_count ≤ MAX_EDGE_ID) :
    build_graph_view graph = .ok
      { vertex_count := graph.vertex_count
        outgoing_offsets := (concat_rows (outgoing_rows graph)).1
        outgoing_edges := (concat_rows (outgoing_rows graph)).2
        incoming_offsets := (concat_rows (incoming_rows graph)).1
        incoming_edges := (concat_rows (incoming_rows graph)).2
        timestamps := graph.edges.flatMap (·.timestamps) } := by
  have hfits : ensure_edge_ids_fit graph.edge_count = .ok () := by
    simp [ensure_edge_ids_fit, Nat.not_lt.mpr hfit]
  simp only [build_graph_view, hfits, foldl_place_edge]
  rfl

theorem faithful_of_build
    (hends : ∀ edge ∈ graph.edges,
      edge.source < graph.vertex_count ∧ edge.target < graph.vertex_count)
    {view : GraphView} (h : build_graph_view graph = .ok view) : view.Faithful graph := by
  have hfit := (build_graph_view_ok h).1
  obtain rfl := Except.ok.inj ((build_graph_view_eq hfit).symm.trans h)
  refine ⟨rfl, ?_, ?_, ?_, ?_⟩
  · exact direction_of_buckets (·.source) (·.target) (·.2) (fun _ => rfl)
      (fun edge entry h => by rw [← h]) fun edge he => (hends edge he).1
  · exact direction_of_buckets (·.target) (·.source) _ (fun _ => rfl) (fun _ _ _ => rfl)
      fun edge he => (hends edge he).2
  · intro i edge h
    exact extract_timestamps h
  · intro offset h
    refine exists_range (Nat.lt_of_lt_of_eq h ?_)
    simp [GraphView.timestamp_count, timestamp_offset, TemporalGraph.edge_count,
      List.length_flatMap]

theorem build_graph_view_faithful
    (hends : ∀ edge ∈ graph.edges,
      edge.source < graph.vertex_count ∧ edge.target < graph.vertex_count)
    (hfit : graph.edge_count ≤ MAX_EDGE_ID) :
    ∃ view, build_graph_view graph = .ok view ∧ view.Faithful graph :=
  ⟨_, build_graph_view_eq hfit, faithful_of_build hends (build_graph_view_eq hfit)⟩

-- Parallel edges, a loop and an empty list of timestamps.
def sample_graph : TemporalGraph :=
  ⟨[5, 7, 9], [⟨2, 0, [3]⟩, ⟨0, 1, [1, 1]⟩, ⟨0, 1, []⟩, ⟨1, 1, [4]⟩]⟩

theorem build_graph_view_faithful_sample :
    ∃ view, build_graph_view sample_graph = .ok view ∧ view.Faithful sample_graph :=
  build_graph_view_faithful (by decide) (by decide)

-- The entries of a row are those of the edges with its key.
theorem Direction.mem_row {offsets : List Nat} {edges : List AdjacencyEntry}
    {row : Nat → List AdjacencyEntry} {key neighbour : TemporalEdge → Nat}
    (h : Direction graph offsets edges row key neighbour) {v : Nat} {entry : AdjacencyEntry} :
    entry ∈ row v ↔ ∃ i edge, graph.edges[i]? = some edge ∧ v = key edge ∧
      entry = ⟨neighbour edge, i, timestamp_offset graph i, timestamp_offset graph (i + 1)⟩ := by
  constructor
  · intro he
    have hi : entry.edge_id < graph.edges.length := h.numbered v entry he
    have hedge := List.getElem?_eq_getElem hi
    have honce := h.once entry.edge_id _ hedge v
    have hmem : entry ∈ (row v).filter (·.edge_id = entry.edge_id) :=
      List.mem_filter.mpr ⟨he, by simp⟩
    rw [honce] at hmem
    split_ifs at hmem with hk
    · exact ⟨_, _, hedge, hk, List.mem_singleton.mp hmem⟩
    · simp at hmem
  · rintro ⟨i, edge, hedge, hk, rfl⟩
    have honce := h.once i edge hedge v
    rw [if_pos hk] at honce
    have hmem : (⟨neighbour edge, i, timestamp_offset graph i, timestamp_offset graph (i + 1)⟩ :
        AdjacencyEntry) ∈ (row v).filter (·.edge_id = i) := by
      rw [honce]
      exact List.mem_singleton_self _
    exact (List.mem_filter.mp hmem).1

-- Every entry of the array of all lies in a row.
theorem Offsets.mem_row {α : Type} {offsets : List Nat} {n : Nat} {edges : List α}
    (h : Offsets offsets n edges.length) {entry : α} (he : entry ∈ edges) :
    ∃ v < n, entry ∈ stored_row offsets edges v := by
  obtain ⟨i, hi, rfl⟩ := List.mem_iff_getElem.mp he
  have hstart := h.getD_start
  have hfinish : offsets.getD n 0 = edges.length := by
    rw [List.getD_eq_getElem?_getD, h.finish]
    rfl
  have hrow : ∀ m ≤ n, i < offsets.getD m 0 →
      ∃ v < m, offsets.getD v 0 ≤ i ∧ i < offsets.getD (v + 1) 0 := by
    intro m
    induction m with
    | zero =>
        intro _ hlt
        omega
    | succ m ih =>
        intro hm hlt
        by_cases hbefore : i < offsets.getD m 0
        · obtain ⟨v, hv, hin⟩ := ih (by omega) hbefore
          exact ⟨v, by omega, hin⟩
        · exact ⟨m, by omega, by omega, hlt⟩
  obtain ⟨v, hv, hlow, hhigh⟩ := hrow n (Nat.le_refl n) (by omega)
  refine ⟨v, hv, ?_⟩
  rw [stored_row, List.extract_eq_take_drop]
  apply List.mem_of_getElem? (i := i - offsets.getD v 0)
  rw [List.getElem?_take_of_lt (by omega), List.getElem?_drop, Nat.add_sub_cancel' hlow,
    List.getElem?_eq_getElem hi]

theorem Offsets.le_size {offsets : List Nat} {n size : Nat} (h : Offsets offsets n size) :
    ∀ offset ∈ offsets, offset ≤ size := by
  intro offset ho
  obtain ⟨i, hi, rfl⟩ := List.mem_iff_getElem.mp ho
  obtain ⟨hn, hfinish⟩ := List.getElem?_eq_some_iff.mp h.finish
  have hlen := h.length
  rw [← hfinish]
  rcases Nat.eq_or_lt_of_le (show i ≤ n by omega) with rfl | hlt
  · exact Nat.le_refl _
  · exact List.pairwise_iff_getElem.mp h.ascending i n hi hn hlt

theorem Direction.timestamps_le {offsets : List Nat} {edges : List AdjacencyEntry}
    {row : Nat → List AdjacencyEntry} {key neighbour : TemporalEdge → Nat}
    (h : Direction graph offsets edges row key neighbour)
    (hrow : ∀ v, row v = stored_row offsets edges v) :
    ∀ entry ∈ edges, entry.timestamp_begin ≤ timestamp_offset graph graph.edge_count ∧
      entry.timestamp_end ≤ timestamp_offset graph graph.edge_count := by
  intro entry he
  obtain ⟨v, -, hv⟩ := h.offsets.mem_row he
  rw [← hrow v, h.mem_row] at hv
  obtain ⟨i, edge, hedge, -, rfl⟩ := hv
  have hi : i < graph.edge_count := (List.getElem?_eq_some_iff.mp hedge).1
  exact ⟨timestamp_offset_le graph (Nat.le_of_lt hi), timestamp_offset_le graph hi⟩

-- The incoming entries are the outgoing ones, seen from the other end.
theorem GraphView.Faithful.mem_incoming_row {view : GraphView} (h : view.Faithful graph) {u v : Nat}
    {entry : AdjacencyEntry} (hu : entry.vertex = u) :
    entry ∈ view.incoming_entries v ↔ { entry with vertex := v } ∈ view.outgoing_entries u := by
  rw [h.incoming.mem_row, h.outgoing.mem_row]
  constructor
  · rintro ⟨i, edge, hedge, rfl, rfl⟩
    exact ⟨i, edge, hedge, hu.symm, rfl⟩
  · rintro ⟨i, edge, hedge, rfl, he⟩
    refine ⟨i, edge, hedge, congrArg AdjacencyEntry.vertex he, ?_⟩
    cases entry
    simp_all

end Build

end CycleEnum
