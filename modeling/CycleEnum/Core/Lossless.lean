import CycleEnum.Core.DataRows
import CycleEnum.Core.Grouping
import Mathlib.Data.List.GetD
import Mathlib.Data.List.Perm.Lattice

namespace CycleEnum

namespace TemporalGraph

def external_id (graph : TemporalGraph) (vertex : Nat) : Except Error Int :=
  match graph.external_ids[vertex]? with
  | some external => .ok external
  | none => .error (.out_of_range "compact vertex id is out of range")

-- The rows that the edges stand for, one for each timestamp.
def expanded (graph : TemporalGraph) : List RawTemporalEdge :=
  graph.edges.flatMap fun edge => edge.timestamps.map fun timestamp =>
    ⟨graph.external_ids.getD edge.source 0, graph.external_ids.getD edge.target 0, timestamp⟩

end TemporalGraph

-- A graph that holds the rows other than self-loops, each as often as it is there.
structure Lossless (rows : List RawTemporalEdge) (graph : TemporalGraph) : Prop where
  increasing : ∀ u v a b, graph.external_id u = .ok a → graph.external_id v = .ok b →
    (a < b ↔ u < v)
  ids : ∀ id, (∃ vertex, graph.external_id vertex = .ok id) ↔
    ∃ row ∈ rows, row.source ≠ row.target ∧ (id = row.source ∨ id = row.target)
  endpoints : ∀ edge ∈ graph.edges,
    edge.source < graph.vertex_count ∧ edge.target < graph.vertex_count
  ascending : graph.edges.Pairwise fun a b =>
    a.source < b.source ∨ a.source = b.source ∧ a.target < b.target
  timestamps : ∀ edge ∈ graph.edges, edge.timestamps ≠ [] ∧ edge.timestamps.Pairwise (· ≤ ·)
  same : graph.expanded.Perm (rows.filter fun row => row.source ≠ row.target)

section Sorting

variable {α : Type}

-- Sorting the distinct elements of a list.
theorem sorted_dedup_pairwise [DecidableEq α] {le : α → α → Prop} [DecidableRel le]
    [Std.Total le] [IsTrans α le] (l : List α) :
    (l.dedup.insertionSort le).Pairwise fun a b => le a b ∧ a ≠ b := by
  have hsorted := List.pairwise_insertionSort le l.dedup
  have hnodup : (l.dedup.insertionSort le).Nodup :=
    (List.perm_insertionSort le _).nodup_iff.mpr (List.nodup_dedup l)
  exact hsorted.and hnodup

theorem insertionSort_congr {le : α → α → Prop} [DecidableRel le] [Std.Total le] [IsTrans α le]
    [Std.Antisymm le] {l l' : List α} (h : l.Perm l') :
    l.insertionSort le = l'.insertionSort le := by
  refine List.Perm.eq_of_pairwise' (List.pairwise_insertionSort le l)
    (List.pairwise_insertionSort le l') ?_
  exact (List.perm_insertionSort le l).trans (h.trans (List.perm_insertionSort le l').symm)

end Sorting

section Rows

instance : Std.Total endpoints_le := ⟨fun a b => by unfold endpoints_le; omega⟩

instance : IsTrans (Nat × Nat) endpoints_le := ⟨fun a b c => by unfold endpoints_le; omega⟩

instance : Std.Antisymm endpoints_le := ⟨fun a b hab hba => by
  unfold endpoints_le at hab hba
  exact Prod.ext (by omega) (by omega)⟩

theorem external_ids_pairwise (raw_edges : List RawTemporalEdge) :
    (external_ids_of raw_edges).Pairwise (· < ·) :=
  (sorted_dedup_pairwise _).imp fun ⟨hle, hne⟩ => lt_of_le_of_ne hle hne

theorem mem_external_ids_iff {raw_edges : List RawTemporalEdge} {id : Int} :
    id ∈ external_ids_of raw_edges ↔
      ∃ row ∈ raw_edges, id = row.source ∨ id = row.target := by
  simp [external_ids_of, List.mem_insertionSort, List.mem_dedup, List.mem_flatMap]

theorem mem_kept_rows {rows : List RawTemporalEdge} {row : RawTemporalEdge} :
    row ∈ kept_rows rows ↔ row ∈ rows ∧ row.source ≠ row.target := by
  simp [kept_rows]

theorem getD_compact {raw_edges : List RawTemporalEdge} {row : RawTemporalEdge}
    (h : row ∈ raw_edges) :
    (external_ids_of raw_edges).getD (compact_endpoints (external_ids_of raw_edges) row).1 0 =
        row.source ∧
      (external_ids_of raw_edges).getD (compact_endpoints (external_ids_of raw_edges) row).2 0 =
        row.target := by
  have hat : ∀ external ∈ external_ids_of raw_edges,
      (external_ids_of raw_edges).getD ((external_ids_of raw_edges).idxOf external) 0 =
        external := by
    intro external hmem
    rw [List.getD_eq_getElem _ _ (List.idxOf_lt_length_of_mem hmem), List.getElem_idxOf]
  obtain ⟨hs, ht⟩ := mem_external_ids_of raw_edges row h
  exact ⟨hat _ hs, hat _ ht⟩

-- The timestamps of one edge come from the rows between its endpoints.
theorem expanded_edge (raw_edges : List RawTemporalEdge) (key : Nat × Nat) :
    let ids := external_ids_of raw_edges
    (((grouped_timestamps ids raw_edges key).insertionSort (· ≤ ·)).map fun timestamp =>
        (⟨ids.getD key.1 0, ids.getD key.2 0, timestamp⟩ : RawTemporalEdge)).Perm
      (raw_edges.filter fun row => compact_endpoints ids row = key) := by
  intro ids
  refine ((List.perm_insertionSort _ _).map _).trans ?_
  rw [grouped_timestamps, List.map_map]
  refine List.Perm.of_eq ((List.map_congr_left fun row hrow => ?_).trans (List.map_id _))
  obtain ⟨hmem, hkey⟩ := List.mem_filter.mp hrow
  obtain ⟨hs, ht⟩ := getD_compact hmem
  have hkey : compact_endpoints ids row = key := by simpa using hkey
  rw [hkey] at hs ht
  simp only [Function.comp_apply, ids, hs, ht, id]

theorem graph_of_rows_expanded (rows : List RawTemporalEdge) :
    (graph_of_rows rows).expanded.Perm (kept_rows rows) := by
  have hgroups := perm_flatMap_groups
    ((List.perm_insertionSort endpoints_le _).nodup_iff.mpr (List.nodup_dedup
      ((kept_rows rows).map (compact_endpoints (external_ids_of (kept_rows rows))))))
    (compact_endpoints (external_ids_of (kept_rows rows))) (kept_rows rows)
    fun row hrow => by
      rw [List.mem_insertionSort, List.mem_dedup]
      exact List.mem_map_of_mem hrow
  refine List.Perm.trans ?_ hgroups
  rw [TemporalGraph.expanded, graph_of_rows, List.flatMap_map]
  exact List.Perm.flatMap_left _ fun key _ => expanded_edge (kept_rows rows) key

theorem external_id_eq_ok_iff {graph : TemporalGraph} {vertex : Nat} {id : Int} :
    graph.external_id vertex = .ok id ↔ graph.external_ids[vertex]? = some id := by
  rw [TemporalGraph.external_id]
  cases graph.external_ids[vertex]? with
  | none => simp
  | some external => simp

theorem lossless_graph_of_rows (rows : List RawTemporalEdge) :
    Lossless rows (graph_of_rows rows) := by
  have hids : (graph_of_rows rows).external_ids = external_ids_of (kept_rows rows) := rfl
  have hlt : ∀ (u v : Nat) (a b : Int), (external_ids_of (kept_rows rows))[u]? = some a →
      (external_ids_of (kept_rows rows))[v]? = some b → u < v → a < b := by
    intro u v a b ha hb huv
    obtain ⟨hu, rfl⟩ := List.getElem?_eq_some_iff.mp ha
    obtain ⟨hv, rfl⟩ := List.getElem?_eq_some_iff.mp hb
    exact List.pairwise_iff_getElem.mp (external_ids_pairwise _) u v hu hv huv
  refine ⟨fun u v a b ha hb => ?_, fun id => ?_, (simple_graph_of_rows rows).endpoints, ?_,
    fun edge hedge => ⟨?_, (simple_graph_of_rows rows).sorted edge hedge⟩,
    graph_of_rows_expanded rows⟩
  · rw [external_id_eq_ok_iff, hids] at ha hb
    rcases Nat.lt_trichotomy u v with huv | rfl | hvu
    · exact ⟨fun _ => huv, fun _ => hlt u v a b ha hb huv⟩
    · obtain rfl : a = b := Option.some.inj (ha.symm.trans hb)
      simp
    · have hba := hlt v u b a hb ha hvu
      constructor
      · intro hab
        omega
      · intro huv
        omega
  · simp only [external_id_eq_ok_iff, hids, ← List.mem_iff_getElem?, mem_external_ids_iff,
      mem_kept_rows]
    constructor
    · rintro ⟨row, ⟨hrow, hne⟩, hid⟩
      exact ⟨row, hrow, hne, hid⟩
    · rintro ⟨row, hrow, hne, hid⟩
      exact ⟨row, ⟨hrow, hne⟩, hid⟩
  · refine List.pairwise_map.mpr ((sorted_dedup_pairwise _).imp fun {a b} ⟨hle, hne⟩ => ?_)
    have hpair : a.1 ≠ b.1 ∨ a.2 ≠ b.2 := by
      by_contra hcon
      rw [not_or, not_not, not_not] at hcon
      exact hne (Prod.ext hcon.1 hcon.2)
    unfold endpoints_le at hle
    change a.1 < b.1 ∨ a.1 = b.1 ∧ a.2 < b.2
    omega
  · obtain ⟨key, hkey, rfl⟩ := List.mem_map.mp hedge
    rw [List.mem_insertionSort, List.mem_dedup] at hkey
    obtain ⟨row, hrow, hkey⟩ := List.mem_map.mp hkey
    have hmem : row.timestamp ∈ (grouped_timestamps (external_ids_of (kept_rows rows))
        (kept_rows rows) key).insertionSort (· ≤ ·) := by
      rw [List.mem_insertionSort, grouped_timestamps]
      exact List.mem_map_of_mem (List.mem_filter.mpr ⟨hrow, by simpa using hkey⟩)
    exact List.ne_nil_of_mem hmem

-- The order of the rows does not matter.
theorem graph_of_rows_congr {rows rows' : List RawTemporalEdge} (h : rows.Perm rows') :
    graph_of_rows rows = graph_of_rows rows' := by
  have hkept : (kept_rows rows).Perm (kept_rows rows') := h.filter _
  have hids : external_ids_of (kept_rows rows) = external_ids_of (kept_rows rows') :=
    insertionSort_congr (hkept.flatMap_right _).dedup
  rw [graph_of_rows, graph_of_rows, hids]
  congr 1
  rw [insertionSort_congr (hkept.map _).dedup]
  refine List.map_congr_left fun key _ => ?_
  have hgroup : (grouped_timestamps (external_ids_of (kept_rows rows')) (kept_rows rows) key).Perm
      (grouped_timestamps (external_ids_of (kept_rows rows')) (kept_rows rows') key) :=
    (hkept.filter _).map _
  rw [insertionSort_congr hgroup]

end Rows

section Reading

variable {path : String} {text : List Char} {graph : TemporalGraph} {rows : List RawTemporalEdge}

-- Nothing is narrowed while the compact ids fit 32 bits.
theorem parsed_graph_eq (hids : (graph_of_rows rows).vertex_count ≤ 2 ^ 32) :
    parsed_graph rows = graph_of_rows rows := by
  have hidem : kept_rows (kept_rows rows) = kept_rows rows := by
    simp [kept_rows]
  rw [parsed_graph, group_compact_edges hids hidem, graph_of_rows, graph_of_rows, hidem]

-- In any case the edges are between vertices, one for each pair, their timestamps sorted.
theorem mem_parsed_graph {edge : TemporalEdge} (hedge : edge ∈ (parsed_graph rows).edges) :
    ∃ raw_edge ∈ kept_rows rows, edge.timestamps.Pairwise (· ≤ ·) ∧
      edge.source = (parsed_graph rows).external_ids.idxOf raw_edge.source % 2 ^ 32 ∧
      edge.target = (parsed_graph rows).external_ids.idxOf raw_edge.target % 2 ^ 32 := by
  obtain ⟨endpoints, hkeys, rfl⟩ := List.mem_map.mp hedge
  rw [List.mem_insertionSort, List.mem_dedup, List.map_map] at hkeys
  obtain ⟨raw_edge, hraw, rfl⟩ := List.mem_map.mp hkeys
  exact ⟨raw_edge, hraw, List.pairwise_insertionSort _ _, rfl, rfl⟩

theorem parsed_graph_endpoints (rows : List RawTemporalEdge) :
    ∀ edge ∈ (parsed_graph rows).edges, edge.source < (parsed_graph rows).vertex_count ∧
      edge.target < (parsed_graph rows).vertex_count := by
  intro edge hedge
  obtain ⟨raw_edge, hraw, -, hs, ht⟩ := mem_parsed_graph hedge
  obtain ⟨hsource, htarget⟩ := mem_external_ids_of _ raw_edge hraw
  rw [hs, ht]
  exact ⟨Nat.lt_of_le_of_lt (Nat.mod_le _ _) (List.idxOf_lt_length_of_mem hsource),
    Nat.lt_of_le_of_lt (Nat.mod_le _ _) (List.idxOf_lt_length_of_mem htarget)⟩

theorem parsed_graph_sorted (rows : List RawTemporalEdge) :
    ∀ edge ∈ (parsed_graph rows).edges, edge.timestamps.Pairwise (· ≤ ·) := by
  intro edge hedge
  obtain ⟨-, -, hsorted, -⟩ := mem_parsed_graph hedge
  exact hsorted

theorem parsed_graph_distinct (rows : List RawTemporalEdge) :
    ((parsed_graph rows).edges.map fun edge => (edge.source, edge.target)).Nodup := by
  rw [parsed_graph, group_edges, List.map_map]
  refine List.Nodup.map (fun a b h => h) ?_
  exact (List.perm_insertionSort _ _).nodup_iff.mpr (List.nodup_dedup _)

-- Reading a file whose compact ids fit 32 bits.
theorem read_temporal_graph_rows (h : read_temporal_graph path (some text) = .ok graph)
    (hids : graph.vertex_count ≤ 2 ^ 32) :
    ∃ found, Holds path (is_matrix_market (get_lines text)) (data_lines text) found ∧
      graph = graph_of_rows found := by
  obtain ⟨found, hfound, rfl⟩ := read_temporal_graph_eq_ok_iff.mp h
  exact ⟨found, hfound, parsed_graph_eq hids⟩

theorem read_temporal_graph_of_rows {found : List RawTemporalEdge}
    (hfound : Holds path (is_matrix_market (get_lines text)) (data_lines text) found)
    (hids : (graph_of_rows found).vertex_count ≤ 2 ^ 32) :
    read_temporal_graph path (some text) = .ok (graph_of_rows found) := by
  exact read_temporal_graph_eq_ok_iff.mpr ⟨found, hfound, (parsed_graph_eq hids).symm⟩

theorem read_temporal_graph_lossless (h : read_temporal_graph path (some text) = .ok graph)
    (hids : graph.vertex_count ≤ 2 ^ 32) :
    (∃ rows, List.Forall₂ (Extracts (is_matrix_market (get_lines text))) (data_lines text) rows ∧
      Lossless rows graph) ∧
    ∀ path' text', is_matrix_market (get_lines text') = is_matrix_market (get_lines text) →
      (data_lines text').Perm (data_lines text) →
      read_temporal_graph path' (some text') = .ok graph := by
  obtain ⟨found, hfound, rfl⟩ := read_temporal_graph_rows h hids
  refine ⟨⟨found, hfound.imp fun line row hrow => extracts_of_read_row hrow,
    lossless_graph_of_rows found⟩, fun path' text' hmode hperm => ?_⟩
  have hfound' : Holds path' (is_matrix_market (get_lines text')) (data_lines text) found := by
    rw [hmode]
    exact hfound.imp fun line row hrow => read_row_congr hrow path' 0
  obtain ⟨found', hfound', hperm'⟩ := List.perm_comp_forall₂ hperm hfound'
  rw [← graph_of_rows_congr hperm'] at hids ⊢
  exact read_temporal_graph_of_rows hfound' hids

theorem read_temporal_graph_lossless_sample :
    (∃ rows, List.Forall₂ (Extracts (is_matrix_market (get_lines "7 3 5\n3,7".toList)))
        (data_lines "7 3 5\n3,7".toList) rows ∧
      Lossless rows ⟨[3, 7], [⟨0, 1, [0]⟩, ⟨1, 0, [5]⟩]⟩) ∧
    ∀ path' text', is_matrix_market (get_lines text') =
        is_matrix_market (get_lines "7 3 5\n3,7".toList) →
      (data_lines text').Perm (data_lines "7 3 5\n3,7".toList) →
      read_temporal_graph path' (some text') = .ok ⟨[3, 7], [⟨0, 1, [0]⟩, ⟨1, 0, [5]⟩]⟩ :=
  have h : read_temporal_graph "g.txt" (some "7 3 5\n3,7".toList) =
      .ok ⟨[3, 7], [⟨0, 1, [0]⟩, ⟨1, 0, [5]⟩]⟩ := by decide
  read_temporal_graph_lossless h (by decide)

end Reading

end CycleEnum
