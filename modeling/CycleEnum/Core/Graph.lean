import CycleEnum.Core.Types
import Mathlib.Data.List.Perm.Subperm
import Mathlib.Data.List.Sort
import Mathlib.Data.List.Dedup
import Mathlib.Data.Int.Order.Basic
import Mathlib.Tactic.Common

namespace CycleEnum

-- A row of an input file, by external ids.
structure RawTemporalEdge where
  source : Int
  target : Int
  timestamp : Int
deriving DecidableEq, Repr

structure TemporalEdge where
  source : Nat
  target : Nat
  timestamps : List Int
deriving DecidableEq, Repr

-- The constructor's `timestamp_count_` is the sum `timestamp_count`.
structure TemporalGraph where
  external_ids : List Int
  edges : List TemporalEdge
deriving DecidableEq, Repr

namespace TemporalGraph

def vertex_count (graph : TemporalGraph) : Nat := graph.external_ids.length

def edge_count (graph : TemporalGraph) : Nat := graph.edges.length

def timestamp_count (graph : TemporalGraph) : Nat :=
  (graph.edges.map fun edge => edge.timestamps.length).sum

end TemporalGraph

-- The order of `std::pair` keys.
def endpoints_le (a b : Nat × Nat) : Prop := a.1 < b.1 ∨ a.1 = b.1 ∧ a.2 ≤ b.2

instance : DecidableRel endpoints_le := fun a b =>
  inferInstanceAs (Decidable (a.1 < b.1 ∨ a.1 = b.1 ∧ a.2 ≤ b.2))

-- The part of `read_temporal_graph` after the rows are read, and the row
-- loop's skipping of self-loops. The set of external ids and the map of grouped
-- edges are given by what iterating over them yields: distinct keys, ascending.
section Rows

def kept_rows (rows : List RawTemporalEdge) : List RawTemporalEdge :=
  rows.filter fun row => row.source ≠ row.target

def external_ids_of (raw_edges : List RawTemporalEdge) : List Int :=
  ((raw_edges.flatMap fun raw_edge => [raw_edge.source, raw_edge.target]).dedup).insertionSort
    (· ≤ ·)

def compact_endpoints (external_ids : List Int) (raw_edge : RawTemporalEdge) : Nat × Nat :=
  (external_ids.idxOf raw_edge.source, external_ids.idxOf raw_edge.target)

def grouped_timestamps (external_ids : List Int) (raw_edges : List RawTemporalEdge)
    (endpoints : Nat × Nat) : List Int :=
  (raw_edges.filter fun raw_edge => compact_endpoints external_ids raw_edge = endpoints).map
    (·.timestamp)

def graph_of_rows (rows : List RawTemporalEdge) : TemporalGraph :=
  let raw_edges := kept_rows rows
  let external_ids := external_ids_of raw_edges
  let keys := ((raw_edges.map (compact_endpoints external_ids)).dedup).insertionSort endpoints_le
  ⟨external_ids, keys.map fun endpoints =>
    ⟨endpoints.1, endpoints.2,
      (grouped_timestamps external_ids raw_edges endpoints).insertionSort (· ≤ ·)⟩⟩

end Rows

-- What the views built from a graph rely on.
structure TemporalGraph.Simple (graph : TemporalGraph) : Prop where
  endpoints : ∀ edge ∈ graph.edges,
    edge.source < graph.vertex_count ∧ edge.target < graph.vertex_count
  no_loop : ∀ edge ∈ graph.edges, edge.source ≠ edge.target
  distinct : (graph.edges.map fun edge => (edge.source, edge.target)).Nodup
  sorted : ∀ edge ∈ graph.edges, edge.timestamps.Pairwise (· ≤ ·)

theorem mem_external_ids_of (raw_edges : List RawTemporalEdge) (raw_edge : RawTemporalEdge)
    (h : raw_edge ∈ raw_edges) :
    raw_edge.source ∈ external_ids_of raw_edges ∧ raw_edge.target ∈ external_ids_of raw_edges := by
  simp only [external_ids_of, List.mem_insertionSort, List.mem_dedup, List.mem_flatMap]
  exact ⟨⟨raw_edge, h, by simp⟩, ⟨raw_edge, h, by simp⟩⟩

-- Every parsed graph has these properties.
theorem simple_graph_of_rows (rows : List RawTemporalEdge) : (graph_of_rows rows).Simple := by
  have hkey : ∀ edge ∈ (graph_of_rows rows).edges, ∃ raw_edge ∈ kept_rows rows,
      compact_endpoints (external_ids_of (kept_rows rows)) raw_edge = (edge.source, edge.target) ∧
      edge.timestamps.Pairwise (· ≤ ·) := by
    intro edge hedge
    obtain ⟨endpoints, hkeys, rfl⟩ := List.mem_map.mp hedge
    rw [List.mem_insertionSort, List.mem_dedup] at hkeys
    obtain ⟨raw_edge, hraw, he⟩ := List.mem_map.mp hkeys
    exact ⟨raw_edge, hraw, he, List.pairwise_insertionSort _ _⟩
  refine ⟨fun edge hedge => ?_, fun edge hedge => ?_, ?_, fun edge hedge => ?_⟩
  · obtain ⟨raw_edge, hraw, he, -⟩ := hkey edge hedge
    obtain ⟨hs, ht⟩ := mem_external_ids_of _ raw_edge hraw
    obtain ⟨he₁, he₂⟩ := Prod.mk.inj he
    rw [← he₁, ← he₂]
    exact ⟨List.idxOf_lt_length_of_mem hs, List.idxOf_lt_length_of_mem ht⟩
  · obtain ⟨raw_edge, hraw, he, -⟩ := hkey edge hedge
    obtain ⟨hs, ht⟩ := mem_external_ids_of _ raw_edge hraw
    obtain ⟨he₁, he₂⟩ := Prod.mk.inj he
    rw [← he₁, ← he₂]
    intro heq
    have hne : raw_edge.source ≠ raw_edge.target := by
      simpa using (List.mem_filter.mp hraw).2
    exact hne ((List.idxOf_inj hs).mp heq)
  · rw [graph_of_rows, List.map_map]
    have hid : ((fun edge : TemporalEdge => (edge.source, edge.target)) ∘
        fun endpoints : Nat × Nat => (⟨endpoints.1, endpoints.2,
          (grouped_timestamps (external_ids_of (kept_rows rows)) (kept_rows rows)
            endpoints).insertionSort (· ≤ ·)⟩ : TemporalEdge)) = id := rfl
    rw [hid, List.map_id]
    exact (List.perm_insertionSort _ _).nodup_iff.mpr (List.nodup_dedup _)
  · exact (hkey edge hedge).choose_spec.2.2

end CycleEnum
