import CycleEnum.Sequential.Theorems
import CycleEnum.Sequential.TemporalInstances
import CycleEnum.Core.Queries
import CycleEnum.Enumeration.CycleMaps
import Mathlib.Data.Set.List

namespace CycleEnum.Sequential

open Enumeration

section Rows

-- Some row leads from one vertex to another, by their ids in the file.
def RowArc (rows : List RawTemporalEdge) (source target : Int) : Prop :=
  source ≠ target ∧ ∃ row ∈ rows, row.source = source ∧ row.target = target

-- Rows, by their positions in the file, that lead round a cycle of distinct vertices.
-- The timestamps increase and lie within the width.
structure RowCycle (rows : List RawTemporalEdge) (width : Int) (positions : List (Fin rows.length)) :
    Prop where
  closed : List.Forall₂ (fun position next => (rows.get position).target = (rows.get next).source)
    positions (positions.rotate 1)
  distinct : (positions.map fun position => (rows.get position).source).Nodup
  increasing : positions.Pairwise fun a b => (rows.get a).timestamp < (rows.get b).timestamp
  window : ∀ first ∈ positions.head?, ∀ last ∈ positions.getLast?,
    (rows.get last).timestamp - (rows.get first).timestamp ≤ width

def row_cycles (rows : List RawTemporalEdge) (width : Int) (k : Nat) :
    Set (List (Fin rows.length)) :=
  {positions | positions.length = k ∧ RowCycle rows width positions}

end Rows

section Ids

variable {rows : List RawTemporalEdge} {view : GraphView}

-- The arcs of a view are the rows that are no self-loops.
theorem arc_iff_edge (h : build_graph_view (graph_of_rows rows) = .ok view) {u v : Nat} :
    Arc view u v ↔ ∃ edge ∈ (graph_of_rows rows).edges, edge.source = u ∧ edge.target = v := by
  have hview := faithful_of_build (simple_graph_of_rows rows).endpoints h
  constructor
  · rintro ⟨entry, hentry, rfl⟩
    obtain ⟨i, edge, hedge, rfl, rfl⟩ := hview.outgoing.mem_row.mp hentry
    exact ⟨edge, List.mem_of_getElem? hedge, rfl, rfl⟩
  · rintro ⟨edge, hedge, rfl, rfl⟩
    obtain ⟨i, hi⟩ := List.mem_iff_getElem?.mp hedge
    exact ⟨_, hview.outgoing.mem_row.mpr ⟨i, edge, hi, rfl, rfl⟩, rfl⟩

theorem row_arc_of_arc (h : build_graph_view (graph_of_rows rows) = .ok view) {u v : Nat}
    (harc : Arc view u v) :
    RowArc rows ((graph_of_rows rows).external_ids.getD u 0)
        ((graph_of_rows rows).external_ids.getD v 0) ∧
      (graph_of_rows rows).external_ids.idxOf ((graph_of_rows rows).external_ids.getD u 0) = u := by
  obtain ⟨edge, hedge, rfl, rfl⟩ := (arc_iff_edge h).mp harc
  obtain ⟨row, hrow, hs, ht⟩ := (exists_edge_iff _ _).mp ⟨edge, hedge, rfl, rfl⟩
  obtain ⟨hrow, hne⟩ := mem_kept_rows.mp hrow
  rw [hs, ht] at hne
  exact ⟨⟨hne, row, hrow, hs, ht⟩, (edge_ids hedge).1⟩

theorem arc_of_row_arc (h : build_graph_view (graph_of_rows rows) = .ok view) {source target : Int}
    (harc : RowArc rows source target) :
    Arc view ((graph_of_rows rows).external_ids.idxOf source)
        ((graph_of_rows rows).external_ids.idxOf target) ∧
      (graph_of_rows rows).external_ids.getD
        ((graph_of_rows rows).external_ids.idxOf source) 0 = source := by
  obtain ⟨hne, row, hrow, rfl, rfl⟩ := harc
  have hkept : row ∈ kept_rows rows := mem_kept_rows.mpr ⟨hrow, hne⟩
  obtain ⟨edge, hedge, hs, ht⟩ := (exists_edge_iff _ _).mpr ⟨row, hkept, rfl, rfl⟩
  refine ⟨(arc_iff_edge h).mpr ⟨edge, hedge, ?_, ?_⟩, getD_idxOf (mem_external_ids hkept).1⟩
  · rw [← hs, (edge_ids hedge).1]
  · rw [← ht, (edge_ids hedge).2]

theorem simple_cycles_ncard_rows (h : build_graph_view (graph_of_rows rows) = .ok view) {k : Nat}
    (hk : 2 ≤ k) : (simple_cycles view k).ncard = (cycles_of (RowArc rows) k).ncard :=
  (cycles_of_bij_on (f := fun v => (graph_of_rows rows).external_ids.getD v 0)
    (g := (graph_of_rows rows).external_ids.idxOf) hk (fun _ _ harc => row_arc_of_arc h harc)
    fun _ _ harc => arc_of_row_arc h harc).ncard_eq

end Ids

section Events

theorem getElem?_flatMap {α β : Type} {l : List α} {f : α → List β} {i j : Nat} {a : α}
    (h : l[i]? = some a) (hj : j < (f a).length) :
    (l.flatMap f)[((l.take i).map fun a => (f a).length).sum + j]? = (f a)[j]? := by
  induction l generalizing i with
  | nil => simp at h
  | cons first l ih =>
      cases i with
      | zero =>
          obtain rfl : first = a := by simpa using h
          simp [List.getElem?_append_left hj]
      | succ i =>
          have hrest := ih (i := i) (by simpa using h)
          simp only [List.flatMap_cons, List.take_succ_cons, List.map_cons, List.sum_cons]
          rw [List.getElem?_append_right (by omega), ← hrest]
          congr 1
          omega

variable {rows : List RawTemporalEdge} {view : GraphView}

theorem expanded_at {graph : TemporalGraph} {i offset : Nat} {edge : TemporalEdge}
    (h : graph.edges[i]? = some edge) (hlow : timestamp_offset graph i ≤ offset)
    (hhigh : offset < timestamp_offset graph (i + 1)) :
    ∃ timestamp, graph.expanded[offset]? = some ⟨graph.external_ids.getD edge.source 0,
      graph.external_ids.getD edge.target 0, timestamp⟩ := by
  rw [timestamp_offset_succ h] at hhigh
  have hj : offset - timestamp_offset graph i < edge.timestamps.length := by omega
  have hexpanded := getElem?_flatMap (f := fun edge : TemporalEdge => edge.timestamps.map
    fun timestamp => (⟨graph.external_ids.getD edge.source 0, graph.external_ids.getD edge.target 0,
      timestamp⟩ : RawTemporalEdge)) h (by simpa using hj)
  simp only [List.length_map] at hexpanded
  rw [← timestamp_offset, Nat.add_sub_cancel' hlow, List.getElem?_map,
    List.getElem?_eq_getElem hj, Option.map_some] at hexpanded
  exact ⟨_, hexpanded⟩

theorem expanded_timestamps (graph : TemporalGraph) :
    graph.expanded.map (·.timestamp) = graph.edges.flatMap (·.timestamps) := by
  simp [TemporalGraph.expanded, List.map_flatMap, Function.comp_def]

-- An event is one of the rows that the edges stand for.
theorem is_event_iff (h : build_graph_view (graph_of_rows rows) = .ok view) {u v offset : Nat} :
    is_event view u v offset ↔ ∃ row, (graph_of_rows rows).expanded[offset]? = some row ∧
      (graph_of_rows rows).external_ids.idxOf row.source = u ∧
      (graph_of_rows rows).external_ids.idxOf row.target = v := by
  have hview := faithful_of_build (simple_graph_of_rows rows).endpoints h
  constructor
  · rintro ⟨entry, hentry, rfl, hlow, hhigh⟩
    obtain ⟨i, edge, hedge, rfl, rfl⟩ := hview.outgoing.mem_row.mp hentry
    obtain ⟨timestamp, hat⟩ := expanded_at hedge hlow hhigh
    exact ⟨_, hat, edge_ids (List.mem_of_getElem? hedge)⟩
  · rintro ⟨row, hat, rfl, rfl⟩
    have hlt : offset < view.timestamp_count := by
      have hlt := (List.getElem?_eq_some_iff.mp hat).1
      rw [← List.length_map (·.timestamp), expanded_timestamps] at hlt
      rwa [GraphView.timestamp_count, (build_graph_view_ok h).2.2.1]
    obtain ⟨i, ⟨hi, hlow, hhigh⟩, -⟩ := hview.partition offset hlt
    have hedge := List.getElem?_eq_getElem hi
    obtain ⟨timestamp, hat'⟩ := expanded_at hedge hlow hhigh
    obtain rfl := Option.some.inj (hat'.symm.trans hat)
    obtain ⟨hs, ht⟩ := edge_ids (List.mem_of_getElem? hedge)
    exact ⟨_, hview.outgoing.mem_row.mpr ⟨i, _, hedge, hs, rfl⟩, ht.symm, hlow, hhigh⟩

theorem timestamp_at_expanded (h : build_graph_view (graph_of_rows rows) = .ok view) {offset : Nat}
    {row : RawTemporalEdge} (hat : (graph_of_rows rows).expanded[offset]? = some row) :
    timestamp_at view.timestamps offset = row.timestamp := by
  rw [timestamp_at, (build_graph_view_ok h).2.2.1, ← expanded_timestamps,
    List.getD_eq_getElem?_getD, List.getElem?_map, hat]
  rfl

end Events

section Temporal

variable {rows : List RawTemporalEdge} {view : GraphView} {width : Int} {k : Nat}
  {positions : List (Fin rows.length)}

def is_loop (row : RawTemporalEdge) : Bool := row.source = row.target

-- What the edges stand for, and the rows that the reader skips.
theorem perm_expanded_loops (rows : List RawTemporalEdge) :
    rows.Perm ((graph_of_rows rows).expanded ++ rows.filter is_loop) := by
  have hkept : kept_rows rows = rows.filter fun row => !is_loop row := by
    simp [kept_rows, is_loop]
  have hsplit := List.filter_append_perm is_loop rows
  rw [← hkept] at hsplit
  exact hsplit.symm.trans (List.perm_append_comm.trans
    ((graph_of_rows_expanded rows).symm.append_right _))

-- Where the timestamp of a row stands in the view. A self-loop comes after all of them.
def offset_of (rows : List RawTemporalEdge) (position : Fin rows.length) : Nat :=
  (perm_expanded_loops rows).idxBij position

def vertex_of (rows : List RawTemporalEdge) (position : Fin rows.length) : Nat :=
  (graph_of_rows rows).external_ids.idxOf (rows.get position).source

theorem offset_of_injective (rows : List RawTemporalEdge) : (offset_of rows).Injective :=
  Fin.val_injective.comp (perm_expanded_loops rows).idxBij_injective

theorem exists_offset_of {offset : Nat} (h : offset < (graph_of_rows rows).expanded.length) :
    ∃ position, offset_of rows position = offset := by
  obtain ⟨position, hposition⟩ := (perm_expanded_loops rows).idxBij_surjective
    ⟨offset, by rw [List.length_append]; omega⟩
  exact ⟨position, congrArg Fin.val hposition⟩

theorem expanded_offset_of (position : Fin rows.length) {row : RawTemporalEdge} :
    (graph_of_rows rows).expanded[offset_of rows position]? = some row ↔
      row = rows.get position ∧ row.source ≠ row.target := by
  have hat : ((graph_of_rows rows).expanded ++ rows.filter is_loop)[offset_of rows position]? =
      some (rows.get position) :=
    List.getElem?_eq_some_iff.mpr
      ⟨Fin.isLt _, (perm_expanded_loops rows).getElem_idxBij_eq_getElem position⟩
  have hkept : ∀ row ∈ (graph_of_rows rows).expanded, row.source ≠ row.target := fun row hrow =>
    (mem_kept_rows.mp ((graph_of_rows_expanded rows).mem_iff.mp hrow)).2
  rcases Nat.lt_or_ge (offset_of rows position) (graph_of_rows rows).expanded.length with hlt | hge
  · rw [List.getElem?_append_left hlt] at hat
    rw [hat, Option.some.injEq]
    constructor
    · rintro rfl
      exact ⟨rfl, hkept _ (List.mem_of_getElem? hat)⟩
    · rintro ⟨rfl, -⟩
      rfl
  · rw [List.getElem?_append_right hge] at hat
    have hloop : (rows.get position).source = (rows.get position).target := by
      simpa [is_loop] using (List.mem_filter.mp (List.mem_of_getElem? hat)).2
    rw [List.getElem?_eq_none hge]
    constructor
    · intro hnone
      cases hnone
    · rintro ⟨rfl, hne⟩
      exact absurd hloop hne

theorem is_event_offset_of (h : build_graph_view (graph_of_rows rows) = .ok view)
    {position : Fin rows.length} {u v : Nat} :
    is_event view u v (offset_of rows position) ↔
      (rows.get position).source ≠ (rows.get position).target ∧ vertex_of rows position = u ∧
        (graph_of_rows rows).external_ids.idxOf (rows.get position).target = v := by
  rw [is_event_iff h]
  constructor
  · rintro ⟨row, hat, rfl, rfl⟩
    obtain ⟨rfl, hne⟩ := (expanded_offset_of position).mp hat
    exact ⟨hne, rfl, rfl⟩
  · rintro ⟨hne, rfl, rfl⟩
    exact ⟨_, (expanded_offset_of position).mpr ⟨rfl, hne⟩, rfl, rfl⟩

-- A row leads to the vertex that another row leaves.
theorem is_event_next (h : build_graph_view (graph_of_rows rows) = .ok view)
    {position next : Fin rows.length} :
    is_event view (vertex_of rows position) (vertex_of rows next) (offset_of rows position) ↔
      (rows.get position).source ≠ (rows.get position).target ∧
        (rows.get position).target = (rows.get next).source := by
  rw [is_event_offset_of h]
  constructor
  · rintro ⟨hne, -, hnext⟩
    have hkept := mem_kept_rows.mpr ⟨List.get_mem rows position, hne⟩
    exact ⟨hne, (List.idxOf_inj (mem_external_ids hkept).2).mp hnext⟩
  · rintro ⟨hne, hnext⟩
    exact ⟨hne, rfl, by rw [vertex_of, hnext]⟩

theorem on_edges_iff (h : build_graph_view (graph_of_rows rows) = .ok view) :
    List.Forall₂ (fun edge event => is_event view edge.1 edge.2 event)
        ((positions.map (vertex_of rows)).zip ((positions.map (vertex_of rows)).rotate 1))
        (positions.map (offset_of rows)) ↔
      (∀ position ∈ positions, (rows.get position).source ≠ (rows.get position).target) ∧
        List.Forall₂ (fun position next => (rows.get position).target = (rows.get next).source)
          positions (positions.rotate 1) := by
  rw [← List.forall₂_and_left, ← List.map_rotate, List.zip_map, List.forall₂_map_left_iff,
    List.forall₂_map_right_iff]
  have hzip := forall₂_zip_self (R := fun position next event => is_event view
    (vertex_of rows position) (vertex_of rows next) (offset_of rows event))
    (List.length_rotate positions 1).symm
  exact hzip.trans ⟨fun hall => hall.imp fun _ _ => (is_event_next h).mp,
    fun hall => hall.imp fun _ _ => (is_event_next h).mpr⟩

-- A self-loop would bring the walk to the same vertex twice.
theorem RowCycle.no_loop (h : RowCycle rows width positions) (hk : 2 ≤ positions.length) :
    ∀ position ∈ positions, (rows.get position).source ≠ (rows.get position).target := by
  intro position hposition hloop
  obtain ⟨i, hi, rfl⟩ := List.mem_iff_getElem.mp hposition
  have hnext : (i + 1) % positions.length < positions.length := Nat.mod_lt _ (by omega)
  have hclosed := (List.forall₂_iff_get.mp h.closed).2 i hi (by rw [List.length_rotate]; exact hi)
  simp only [List.get_eq_getElem, List.getElem_rotate] at hclosed
  simp only [List.get_eq_getElem] at hloop
  rw [← hloop] at hclosed
  have hlt : i < (positions.map fun position => (rows.get position).source).length := by
    rwa [List.length_map]
  have hsame : i = (i + 1) % positions.length :=
    (List.getElem?_inj hlt h.distinct).mp (by
      simp only [List.getElem?_map, List.getElem?_eq_getElem hi, List.getElem?_eq_getElem hnext,
        Option.map_some, List.get_eq_getElem, hclosed])
  rcases Nat.lt_or_ge (i + 1) positions.length with hlt | hge
  · rw [Nat.mod_eq_of_lt hlt] at hsame
    omega
  · rw [show i + 1 = positions.length by omega, Nat.mod_self] at hsame
    omega

theorem timestamp_offset_of (h : build_graph_view (graph_of_rows rows) = .ok view)
    {position : Fin rows.length} (hne : (rows.get position).source ≠ (rows.get position).target) :
    timestamp_at view.timestamps (offset_of rows position) = (rows.get position).timestamp :=
  timestamp_at_expanded h ((expanded_offset_of position).mpr ⟨rfl, hne⟩)

theorem vertices_nodup_iff
    (hne : ∀ position ∈ positions, (rows.get position).source ≠ (rows.get position).target) :
    (positions.map (vertex_of rows)).Nodup ↔
      (positions.map fun position => (rows.get position).source).Nodup := by
  have hids : positions.map (vertex_of rows) = (positions.map fun position =>
      (rows.get position).source).map fun id => (graph_of_rows rows).external_ids.idxOf id := by
    rw [List.map_map]
    rfl
  rw [hids]
  refine ⟨List.Nodup.of_map _, fun hnodup => hnodup.map_on fun a ha b _ heq => ?_⟩
  obtain ⟨position, hposition, rfl⟩ := List.mem_map.mp ha
  have hkept := mem_kept_rows.mpr ⟨List.get_mem rows position, hne position hposition⟩
  exact (List.idxOf_inj (mem_external_ids hkept).1).mp heq

theorem increasing_iff (h : build_graph_view (graph_of_rows rows) = .ok view)
    (hne : ∀ position ∈ positions, (rows.get position).source ≠ (rows.get position).target) :
    ((positions.map (offset_of rows)).Pairwise fun a b =>
        timestamp_at view.timestamps a < timestamp_at view.timestamps b) ↔
      positions.Pairwise fun a b => (rows.get a).timestamp < (rows.get b).timestamp := by
  rw [List.pairwise_map]
  refine List.Pairwise.iff_of_mem fun {a b} ha hb => ?_
  rw [timestamp_offset_of h (hne a ha), timestamp_offset_of h (hne b hb)]

theorem window_iff (h : build_graph_view (graph_of_rows rows) = .ok view)
    (hne : ∀ position ∈ positions, (rows.get position).source ≠ (rows.get position).target) :
    (∀ first ∈ (positions.map (offset_of rows)).head?,
        ∀ last ∈ (positions.map (offset_of rows)).getLast?,
        timestamp_at view.timestamps last - timestamp_at view.timestamps first ≤ width) ↔
      ∀ first ∈ positions.head?, ∀ last ∈ positions.getLast?,
        (rows.get last).timestamp - (rows.get first).timestamp ≤ width := by
  simp only [List.head?_map, List.getLast?_map, Option.mem_map, forall_exists_index, and_imp,
    forall_apply_eq_imp_iff₂]
  refine forall₂_congr fun first hfirst => forall₂_congr fun last hlast => ?_
  rw [timestamp_offset_of h (hne first (List.mem_of_head? hfirst)),
    timestamp_offset_of h (hne last (List.mem_of_getLast? hlast))]

theorem temporal_cycle_rows_iff (h : build_graph_view (graph_of_rows rows) = .ok view)
    (hk : 2 ≤ positions.length) :
    TemporalCycle view width (positions.map (vertex_of rows)) (positions.map (offset_of rows)) ↔
      RowCycle rows width positions := by
  constructor
  · intro hcycle
    obtain ⟨hne, hclosed⟩ := (on_edges_iff h).mp hcycle.on_edges
    exact ⟨hclosed, (vertices_nodup_iff hne).mp hcycle.nodup,
      (increasing_iff h hne).mp hcycle.increasing, (window_iff h hne).mp hcycle.window⟩
  · intro hcycle
    have hne := hcycle.no_loop hk
    exact ⟨(vertices_nodup_iff hne).mpr hcycle.distinct, (on_edges_iff h).mpr ⟨hne, hcycle.closed⟩,
      (increasing_iff h hne).mpr hcycle.increasing, (window_iff h hne).mpr hcycle.window⟩

-- Every cycle of the view is one of rows.
theorem exists_positions (h : build_graph_view (graph_of_rows rows) = .ok view)
    {vertices events : List Nat} (hcycle : TemporalCycle view width vertices events) :
    ∃ positions : List (Fin rows.length),
      positions.map (vertex_of rows) = vertices ∧ positions.map (offset_of rows) = events := by
  have hevents : events ∈ Set.range (List.map (offset_of rows)) := by
    rw [Set.range_list_map]
    intro event hevent
    obtain ⟨i, hi, rfl⟩ := List.mem_iff_getElem.mp hevent
    obtain ⟨hlength, hall⟩ := List.forall₂_iff_get.mp hcycle.on_edges
    obtain ⟨row, hrow, -⟩ := (is_event_iff h).mp (hall i (by omega) hi)
    exact exists_offset_of (List.getElem?_eq_some_iff.mp hrow).1
  obtain ⟨positions, rfl⟩ := hevents
  refine ⟨positions, ?_, rfl⟩
  have hedges := List.forall₂_map_right_iff.mp hcycle.on_edges
  have hfirst : List.Forall₂ (fun edge position => edge.1 = vertex_of rows position)
      (vertices.zip (vertices.rotate 1)) positions :=
    hedges.imp fun _ _ hevent => ((is_event_offset_of h).mp hevent).2.1.symm
  have hmap : (vertices.zip (vertices.rotate 1)).map Prod.fst = positions.map (vertex_of rows) :=
    List.forall₂_eq_eq_eq ▸ List.forall₂_map_left_iff.mpr (List.forall₂_map_right_iff.mpr hfirst)
  rw [← hmap, List.map_fst_zip (List.length_rotate vertices 1).ge]

theorem temporal_cycles_ncard_rows (h : build_graph_view (graph_of_rows rows) = .ok view)
    (hk : 2 ≤ k) : (temporal_cycles view width k).ncard = (row_cycles rows width k).ncard := by
  have himage : temporal_cycles view width k = Set.image (fun positions =>
      (positions.map (vertex_of rows), positions.map (offset_of rows))) (row_cycles rows width k) := by
    refine Set.ext fun cycle => ⟨fun hcycle => ?_, ?_⟩
    · obtain ⟨hlength, hcycle⟩ := hcycle
      obtain ⟨positions, hvertices, hevents⟩ := exists_positions h hcycle
      rw [← hvertices, List.length_map] at hlength
      rw [← hvertices, ← hevents, temporal_cycle_rows_iff h (by omega)] at hcycle
      exact ⟨positions, ⟨hlength, hcycle⟩, Prod.ext hvertices hevents⟩
    · rintro ⟨positions, ⟨rfl, hcycle⟩, rfl⟩
      exact ⟨List.length_map _, (temporal_cycle_rows_iff h hk).mpr hcycle⟩
  rw [himage]
  refine Set.ncard_image_of_injective _ fun a b heq => ?_
  exact List.map_injective_iff.mpr (offset_of_injective rows) (congrArg Prod.snd heq)

end Temporal

end CycleEnum.Sequential
