import CycleEnum.Core.CompactIds
import CycleEnum.Core.Queries
import CycleEnum.Sequential.WindowCycles
import CycleEnum.Sequential.Endless

namespace CycleEnum.Sequential

open Enumeration

-- A view that the library builds from the rows of an input file.
def Parsed (graph : GraphView) : Prop :=
  ∃ rows, build_graph_view (parsed_graph rows) = .ok graph

def view_of (rows : List RawTemporalEdge) : GraphView :=
  match build_graph_view (graph_of_rows rows) with
  | .ok graph => graph
  | .error _ => ⟨0, [], [], [], [], []⟩

theorem Parsed.rows {graph : GraphView} (h : Parsed graph) (hids : graph.vertex_count < 2 ^ 32) :
    ∃ rows, build_graph_view (graph_of_rows rows) = .ok graph := by
  obtain ⟨rows, h⟩ := h
  have hvertices : graph.vertex_count = (graph_of_rows rows).vertex_count :=
    (build_graph_view_ok h).2.1
  exact ⟨rows, parsed_graph_eq (hvertices ▸ Nat.le_of_lt hids) ▸ h⟩

theorem parsed_of_rows {graph : GraphView} {rows : List RawTemporalEdge}
    (h : build_graph_view (graph_of_rows rows) = .ok graph) (hids : graph.vertex_count ≤ 2 ^ 32) :
    Parsed graph := by
  have hvertices : graph.vertex_count = (graph_of_rows rows).vertex_count :=
    (build_graph_view_ok h).2.1
  exact ⟨rows, (parsed_graph_eq (hvertices ▸ hids)).symm ▸ h⟩

theorem Parsed.well_formed {graph : GraphView} (h : Parsed graph)
    (hids : graph.vertex_count < 2 ^ 32) : graph.WellFormed := by
  obtain ⟨rows, h⟩ := h.rows hids
  exact parsed_well_formed h hids

-- Two cycles through the vertices 0 and 1.
def sample_rows : List RawTemporalEdge := [⟨0, 1, 1⟩, ⟨1, 2, 2⟩, ⟨2, 0, 3⟩, ⟨1, 0, 5⟩]

theorem sample_parsed : Parsed (view_of sample_rows) := ⟨sample_rows, rfl⟩

theorem sample_window : NoWindowOverflow (view_of sample_rows) 10 := by
  unfold NoWindowOverflow
  decide

section Wide

-- Rows that each join two vertices of their own, and further rows between these
-- vertices. The vertex ids are their places.
def wide_rows (line_count : Nat) (extra : List RawTemporalEdge) : List RawTemporalEdge :=
  (List.range line_count).map wide_row ++ extra

-- A few rows between vertices that the others have.
structure Few (line_count : Nat) (extra : List RawTemporalEdge) : Prop where
  length : line_count + extra.length ≤ MAX_EDGE_ID
  between : ∀ row ∈ extra, row.source ≠ row.target ∧
    (0 ≤ row.source ∧ row.source < 2 * line_count) ∧ 0 ≤ row.target ∧ row.target < 2 * line_count

theorem Few.nil {line_count : Nat} (h : line_count ≤ MAX_EDGE_ID) : Few line_count [] :=
  ⟨h, by simp⟩

variable {line_count : Nat} {extra : List RawTemporalEdge} (hfew : Few line_count extra)

theorem mem_wide_rows {row : RawTemporalEdge} : row ∈ wide_rows line_count extra ↔
    (∃ index < line_count, row = wide_row index) ∨ row ∈ extra := by
  simp only [wide_rows, List.mem_append, List.mem_map, List.mem_range, eq_comm]

include hfew

theorem kept_wide_rows : kept_rows (wide_rows line_count extra) = wide_rows line_count extra := by
  rw [wide_rows, kept_rows, List.filter_append, ← kept_rows, kept_rows_wide]
  congr 1
  refine List.filter_eq_self.mpr fun row hrow => ?_
  simpa using (hfew.between row hrow).1

-- Every number below the bound is the id of a vertex, and no other number is.
theorem wide_ids : (graph_of_rows (wide_rows line_count extra)).external_ids =
    (List.range (2 * line_count)).map Nat.cast := by
  change external_ids_of (kept_rows (wide_rows line_count extra)) = _
  rw [kept_wide_rows hfew]
  have hsorted : ((List.range (2 * line_count)).map (Nat.cast : Nat → Int)).Pairwise (· < ·) :=
    List.pairwise_map.mpr (List.pairwise_lt_range.imp Int.ofNat_lt.mpr)
  refine List.Perm.eq_of_pairwise (fun a b _ _ hab hba => absurd hab (Int.not_lt.mpr hba.le))
    (external_ids_pairwise _) hsorted ?_
  refine (List.perm_ext_iff_of_nodup ((external_ids_pairwise _).imp Int.ne_of_lt)
    (hsorted.imp Int.ne_of_lt)).mpr fun id => ?_
  rw [mem_external_ids_iff]
  simp only [mem_wide_rows, List.mem_map, List.mem_range]
  constructor
  · rintro ⟨row, ⟨index, hindex, rfl⟩ | hrow, hid⟩
    · rcases hid with rfl | rfl
      · exact ⟨2 * index, by omega, rfl⟩
      · exact ⟨2 * index + 1, by omega, rfl⟩
    · obtain ⟨-, hsource, htarget⟩ := hfew.between row hrow
      refine ⟨id.toNat, ?_, ?_⟩
      · rcases hid with rfl | rfl <;> omega
      · rcases hid with rfl | rfl <;> omega
  · rintro ⟨id, hid, rfl⟩
    refine ⟨wide_row (id / 2), Or.inl ⟨id / 2, by omega, rfl⟩, ?_⟩
    change (id : Int) = (2 * (id / 2) : Nat) ∨ (id : Int) = (2 * (id / 2) + 1 : Nat)
    omega

theorem wide_built : build_graph_view (graph_of_rows (wide_rows line_count extra)) =
    .ok (view_of (wide_rows line_count extra)) := by
  have hcount : (graph_of_rows (wide_rows line_count extra)).edge_count ≤
      line_count + extra.length := by
    rw [TemporalGraph.edge_count, graph_of_rows, List.length_map, List.length_insertionSort,
      kept_wide_rows hfew]
    refine (List.dedup_sublist _).length_le.trans (Nat.le_of_eq ?_)
    rw [List.length_map, wide_rows, List.length_append, List.length_map, List.length_range]
  have hle := hfew.length
  rw [view_of]
  cases hbuild : build_graph_view (graph_of_rows (wide_rows line_count extra)) with
  | error error =>
      have := build_graph_view_error_iff.mp ⟨error, hbuild⟩
      omega
  | ok view => rfl

theorem wide_vertex_count : (view_of (wide_rows line_count extra)).vertex_count = 2 * line_count := by
  rw [(build_graph_view_ok (wide_built hfew)).2.1, TemporalGraph.vertex_count, wide_ids hfew,
    List.length_map, List.length_range]

theorem wide_parsed (hids : 2 * line_count ≤ 2 ^ 32) :
    Parsed (view_of (wide_rows line_count extra)) :=
  parsed_of_rows (wide_built hfew) ((wide_vertex_count hfew).le.trans hids)

theorem wide_external_id {v : Nat}
    (hv : v < (graph_of_rows (wide_rows line_count extra)).vertex_count) :
    (graph_of_rows (wide_rows line_count extra)).external_ids.getD v 0 = v := by
  rw [TemporalGraph.vertex_count, wide_ids hfew, List.length_map, List.length_range] at hv
  rw [wide_ids hfew, List.getD_eq_getElem _ _ (by simpa using hv), List.getElem_map,
    List.getElem_range]

-- The edges are those of the rows.
theorem wide_edge {edge : TemporalEdge}
    (hedge : edge ∈ (graph_of_rows (wide_rows line_count extra)).edges) {timestamp : Int}
    (ht : timestamp ∈ edge.timestamps) :
    (⟨edge.source, edge.target, timestamp⟩ : RawTemporalEdge) ∈ wide_rows line_count extra := by
  obtain ⟨hs, htarget⟩ :=
    (lossless_graph_of_rows (wide_rows line_count extra)).endpoints edge hedge
  have hexpanded : (⟨edge.source, edge.target, timestamp⟩ : RawTemporalEdge) ∈
      (graph_of_rows (wide_rows line_count extra)).expanded :=
    mem_expanded.mpr ⟨edge, hedge, ht, wide_external_id hfew hs, wide_external_id hfew htarget⟩
  have hmem := (graph_of_rows_expanded (wide_rows line_count extra)).mem_iff.mp hexpanded
  rwa [kept_wide_rows hfew] at hmem

-- Each row is an event of an edge between its ids.
theorem wide_event {row : RawTemporalEdge} (hrow : row ∈ wide_rows line_count extra) {u v : Nat}
    (hu : row.source = u) (hv : row.target = v) :
    ∃ entry ∈ (view_of (wide_rows line_count extra)).outgoing_entries u, entry.vertex = v ∧
      ∃ offset, entry.timestamp_begin ≤ offset ∧ offset < entry.timestamp_end ∧
        timestamp_at (view_of (wide_rows line_count extra)).timestamps offset = row.timestamp := by
  have hfaithful := faithful_of_build
    (simple_graph_of_rows (wide_rows line_count extra)).endpoints (wide_built hfew)
  rw [← kept_wide_rows hfew] at hrow
  obtain ⟨edge, hedge, ht, hs, htarget⟩ :=
    mem_expanded.mp ((graph_of_rows_expanded _).mem_iff.mpr hrow)
  obtain ⟨hsource, htarget'⟩ :=
    (lossless_graph_of_rows (wide_rows line_count extra)).endpoints edge hedge
  rw [wide_external_id hfew hsource, hu] at hs
  rw [wide_external_id hfew htarget', hv] at htarget
  obtain ⟨i, hi⟩ := List.mem_iff_getElem?.mp hedge
  obtain ⟨j, hj⟩ := List.mem_iff_getElem?.mp ht
  have hlt : j < edge.timestamps.length := (List.getElem?_eq_some_iff.mp hj).1
  have hslice := hfaithful.slices i edge hi
  refine ⟨_, hfaithful.outgoing.mem_row.mpr ⟨i, edge, hi, (Int.ofNat_inj.mp hs).symm, rfl⟩,
    Int.ofNat_inj.mp htarget, timestamp_offset _ i + j, Nat.le_add_right _ _, ?_, ?_⟩
  · change _ < timestamp_offset _ (i + 1)
    rw [timestamp_offset_succ hi]
    omega
  · rw [← hslice, List.extract_eq_take_drop, List.getElem?_take, List.getElem?_drop] at hj
    split_ifs at hj
    · rw [timestamp_at, List.getD_eq_getElem?_getD, hj]
      rfl

theorem wide_arc {u v : Nat} (h : Arc (view_of (wide_rows line_count extra)) u v) :
    ∃ row ∈ wide_rows line_count extra, row.source = u ∧ row.target = v := by
  have hfaithful := faithful_of_build
    (simple_graph_of_rows (wide_rows line_count extra)).endpoints (wide_built hfew)
  obtain ⟨entry, hentry, rfl⟩ := h
  obtain ⟨i, edge, hedge, rfl, rfl⟩ := hfaithful.outgoing.mem_row.mp hentry
  have hedge := List.mem_of_getElem? hedge
  obtain ⟨timestamp, ht⟩ := List.exists_mem_of_ne_nil _
    ((lossless_graph_of_rows (wide_rows line_count extra)).timestamps edge hedge).1
  exact ⟨_, wide_edge hfew hedge ht, rfl, rfl⟩

-- With 2^32 vertices the last one has a row that is read as empty.
theorem wide_last_row :
    (view_of (wide_rows line_count extra)).outgoing_row (2 ^ 32 - 1) = [] :=
  narrow_row_last (build_graph_view_ok (wide_built hfew)).2.2.2.1 rfl

end Wide

section Acyclic

variable {line_count : Nat}

theorem wide_rows_nodup : (wide_rows line_count []).Nodup := by
  rw [wide_rows, List.append_nil]
  refine List.nodup_range.map fun i j hij => ?_
  have hsource := congrArg RawTemporalEdge.source hij
  change ((2 * i : Nat) : Int) = (2 * j : Nat) at hsource
  omega

theorem mem_wide_rows_nil {row : RawTemporalEdge} :
    row ∈ wide_rows line_count [] ↔ ∃ index < line_count, row = wide_row index := by
  simp [mem_wide_rows]

variable (h : line_count ≤ MAX_EDGE_ID)

include h

-- Without further rows every edge leads from an even vertex to an odd one.
theorem wide_arc_parity {u v : Nat} (harc : Arc (view_of (wide_rows line_count [])) u v) :
    u % 2 = 0 ∧ v % 2 = 1 := by
  obtain ⟨row, hrow, hs, ht⟩ := wide_arc (Few.nil h) harc
  obtain ⟨index, -, rfl⟩ := mem_wide_rows_nil.mp hrow
  change ((2 * index : Nat) : Int) = u at hs
  change ((2 * index + 1 : Nat) : Int) = v at ht
  omega

theorem wide_simple_cycles {k : Nat} (hk : 2 ≤ k) :
    simple_cycles (view_of (wide_rows line_count [])) k = ∅ := by
  refine Set.eq_empty_iff_forall_notMem.mpr fun c hc => ?_
  obtain ⟨-, hlength, hchain⟩ := hc
  have htwo : 2 ≤ c.length := hlength ▸ hk
  have harcs := (chain_iff_follows _ c htwo).mp hchain
  obtain ⟨u, hu⟩ := exists_mem_of_length_pos (Nat.lt_of_lt_of_le Nat.two_pos htwo)
  obtain ⟨v, huv⟩ := exists_follower htwo hu
  obtain ⟨w, hvw⟩ := exists_follower htwo huv.mem.2
  have hodd := (wide_arc_parity h (harcs u v huv)).2
  have heven := (wide_arc_parity h (harcs v w hvw)).1
  omega

-- An edge has the timestamp of its one row.
theorem wide_timestamps {edge : TemporalEdge}
    (hedge : edge ∈ (graph_of_rows (wide_rows line_count [])).edges) :
    edge.timestamps = [kDefaultMissingTimestamp] := by
  have hsame : ∀ timestamp ∈ edge.timestamps, timestamp = kDefaultMissingTimestamp := by
    intro timestamp ht
    obtain ⟨index, -, hrow⟩ := mem_wide_rows_nil.mp (wide_edge (Few.nil h) hedge ht)
    exact congrArg RawTemporalEdge.timestamp hrow
  have hnodup : (graph_of_rows (wide_rows line_count [])).expanded.Nodup := by
    rw [(graph_of_rows_expanded _).nodup_iff, kept_wide_rows (Few.nil h)]
    exact wide_rows_nodup
  have heq := List.eq_replicate_iff.mpr ⟨rfl, hsame⟩
  have hone : edge.timestamps.length ≤ 1 := by
    have hpart := ((List.nodup_flatMap.mp hnodup).1 edge hedge).of_map _
    rw [heq] at hpart
    exact List.nodup_replicate.mp hpart
  have hpos := List.length_pos_of_ne_nil
    ((lossless_graph_of_rows (wide_rows line_count [])).timestamps edge hedge).1
  rw [heq, show edge.timestamps.length = 1 by omega]
  rfl

theorem wide_timestamp_count :
    (view_of (wide_rows line_count [])).timestamp_count ≤ MAX_EDGE_ID := by
  obtain ⟨hedges, -, htimes, -⟩ := build_graph_view_ok (wide_built (Few.nil h))
  have hones : (graph_of_rows (wide_rows line_count [])).edges.map (·.timestamps.length) =
      (graph_of_rows (wide_rows line_count [])).edges.map fun _ => 1 :=
    List.map_congr_left fun edge hedge => by rw [wide_timestamps h hedge, List.length_singleton]
  rw [GraphView.timestamp_count, htimes, List.length_flatMap, hones, List.map_const',
    List.sum_replicate_nat, Nat.mul_one]
  exact hedges

theorem wide_single_timestamps : SingleTimestamps (view_of (wide_rows line_count [])) := by
  intro entry hentry
  have hfaithful := faithful_of_build
    (simple_graph_of_rows (wide_rows line_count [])).endpoints (wide_built (Few.nil h))
  obtain ⟨v, -, hrow⟩ := hfaithful.outgoing.offsets.mem_row hentry
  obtain ⟨i, edge, hedge, -, rfl⟩ := hfaithful.outgoing.mem_row.mp hrow
  change timestamp_offset _ (i + 1) = timestamp_offset _ i + 1
  rw [timestamp_offset_succ hedge, wide_timestamps h (List.mem_of_getElem? hedge)]
  rfl

theorem wide_no_window_overflow {width : Int} (hwidth : width ≤ MAX_TIMESTAMP) :
    NoWindowOverflow (view_of (wide_rows line_count [])) width := by
  intro start _
  have htimestamps := (build_graph_view_ok (wide_built (Few.nil h))).2.2.1
  have hzero : start.time (view_of (wide_rows line_count [])) = 0 := by
    rw [Start.time, timestamp_at]
    by_cases hoffset : start.offset < (view_of (wide_rows line_count [])).timestamps.length
    · have ht := List.getElem_mem hoffset
      rw [← List.getD_eq_getElem _ 0, htimestamps] at ht
      obtain ⟨edge, hedge, ht⟩ := List.mem_flatMap.mp ht
      rw [wide_timestamps h hedge, ← htimestamps] at ht
      exact List.mem_singleton.mp ht
    · exact List.getD_eq_default _ 0 (Nat.le_of_not_lt hoffset)
  rw [hzero]
  omega

end Acyclic

-- 2^31 edges without a cycle, and 2^32 vertices.
def wide_view : GraphView := view_of (wide_rows (2 ^ 31) [])

theorem wide_view_parsed : Parsed wide_view := wide_parsed (.nil (by decide)) (by decide)

theorem wide_view_vertex_count : wide_view.vertex_count = 2 ^ 32 :=
  wide_vertex_count (.nil (by decide))

theorem wide_view_cycles {k : Nat} (hk : 2 ≤ k) : simple_cycles wide_view k = ∅ :=
  wide_simple_cycles (by decide) hk

theorem wide_view_numbers {k : Nat} (hk : 2 ≤ k) : (simple_cycles wide_view k).ncard = 0 := by
  rw [wide_view_cycles hk, Set.ncard_empty]

theorem wide_view_single_timestamps : SingleTimestamps wide_view := wide_single_timestamps (by decide)

theorem wide_view_window : NoWindowOverflow wide_view 0 := wide_no_window_overflow (by decide) (by decide)

section Last

-- A row from the last of 2^32 vertices back to the one that leads to it.
def back_row : RawTemporalEdge := ⟨(2 ^ 32 - 1 : Nat), (2 ^ 32 - 2 : Nat), 1⟩

def back_view : GraphView := view_of (wide_rows (2 ^ 31) [back_row])

theorem back_few : Few (2 ^ 31) [back_row] :=
  ⟨by decide, List.forall_mem_singleton.mpr (by decide)⟩

theorem back_view_parsed : Parsed back_view := wide_parsed back_few (by decide)

theorem back_view_vertex_count : back_view.vertex_count = 2 ^ 32 := wide_vertex_count back_few

-- The row of the last vertex has an event, and the searches do not see it.
theorem back_view_last : back_view.outgoing_row (2 ^ 32 - 1) = [] := wide_last_row back_few

theorem back_view_event : ∃ entry ∈ back_view.outgoing_entries (2 ^ 32 - 1),
    entry.vertex = 2 ^ 32 - 2 ∧ ∃ offset, entry.timestamp_begin ≤ offset ∧
      offset < entry.timestamp_end ∧ timestamp_at back_view.timestamps offset = 1 :=
  wide_event back_few (mem_wide_rows.mpr (Or.inr (List.mem_singleton_self _))) rfl rfl

-- All that leads on from the vertex before is the edge to the last one.
theorem back_view_row : ∃ edge after, back_view.outgoing_row (2 ^ 32 - 2) = edge :: after ∧
    edge.vertex = 2 ^ 32 - 1 := by
  have hwhole : back_view.outgoing_row (2 ^ 32 - 2) = back_view.outgoing_entries (2 ^ 32 - 2) :=
    narrow_row_eq (by decide)
  obtain ⟨entry, hentry, -⟩ := wide_event (u := 2 ^ 32 - 2) (v := 2 ^ 32 - 1) back_few
    (mem_wide_rows.mpr (Or.inl ⟨2 ^ 31 - 1, by decide, rfl⟩)) rfl rfl
  cases hrow : back_view.outgoing_row (2 ^ 32 - 2) with
  | nil =>
      rw [← back_view, ← hwhole, hrow] at hentry
      cases hentry
  | cons edge after =>
      refine ⟨edge, after, rfl, ?_⟩
      have hedge : edge ∈ back_view.outgoing_entries (2 ^ 32 - 2) :=
        hwhole ▸ hrow ▸ List.mem_cons_self
      obtain ⟨row, hmem, hs, ht⟩ := wide_arc back_few ⟨edge, hedge, rfl⟩
      rcases mem_wide_rows.mp hmem with ⟨index, -, rfl⟩ | hback
      · change ((2 * index : Nat) : Int) = (2 ^ 32 - 2 : Nat) at hs
        change ((2 * index + 1 : Nat) : Int) = edge.vertex at ht
        omega
      · obtain rfl := List.mem_singleton.mp hback
        exact absurd hs (by decide)

end Last

end CycleEnum.Sequential
