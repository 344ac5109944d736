import CycleEnum.Core.BinarySearch
import CycleEnum.Core.RunLength
import CycleEnum.Cuda.Theorems
import CycleEnum.Cuda.TimestampLookups

namespace CycleEnum.Cuda

open CycleEnum.Sequential (Parsed view_of sample_rows sample_parsed)

structure TimestampGroups where
  edge_group_offsets : List Nat
  group_values : List Int
  group_counts : List Nat
deriving DecidableEq, Repr

-- The inner loop: `offset` passes the timestamps that have the value.
def count_run (timestamps : List Int) (timestamp_end : Nat) (value : Int) (count offset : Nat) :
    Nat × Nat :=
  if offset < timestamp_end ∧ timestamp_at timestamps offset = value then
    count_run timestamps timestamp_end value (count + 1) (offset + 1)
  else (count, offset)
termination_by timestamp_end - offset

theorem count_run_le (timestamps : List Int) (timestamp_end : Nat) (value : Int)
    (count offset : Nat) :
    offset ≤ (count_run timestamps timestamp_end value count offset).2 := by
  induction count, offset using count_run.induct timestamps timestamp_end value with
  | case1 count offset h ih =>
      rw [count_run, if_pos h]
      omega
  | case2 count offset h =>
      rw [count_run, if_neg h]

theorem lt_count_run (timestamps : List Int) {timestamp_end offset : Nat}
    (h : offset < timestamp_end) (count : Nat) :
    offset < (count_run timestamps timestamp_end (timestamp_at timestamps offset) count offset).2 := by
  rw [count_run, if_pos ⟨h, rfl⟩]
  exact count_run_le _ _ _ _ _

-- The loop over the timestamps of one edge.
def group_edge (timestamps : List Int) (timestamp_end offset : Nat) (groups : TimestampGroups) :
    TimestampGroups :=
  if offset < timestamp_end then
    let value := timestamp_at timestamps offset
    let run := count_run timestamps timestamp_end value 0 offset
    group_edge timestamps timestamp_end run.2
      { groups with
        group_values := groups.group_values ++ [value]
        group_counts := groups.group_counts ++ [run.1] }
  else groups
termination_by timestamp_end - offset
decreasing_by
  have := lt_count_run timestamps ‹offset < timestamp_end› 0
  omega

def build_outgoing_timestamp_groups (graph : GraphView) : TimestampGroups :=
  graph.outgoing_edges.foldl (fun groups edge =>
    let groups := group_edge graph.timestamps edge.timestamp_end edge.timestamp_begin groups
    { groups with
      edge_group_offsets := groups.edge_group_offsets ++ [groups.group_values.length] })
    ⟨[0], [], []⟩

-- The groups between the two offsets of an edge slot.
def TimestampGroups.slot_groups (groups : TimestampGroups) (slot : Nat) : List (Int × Nat) :=
  (groups.group_values.zip groups.group_counts).extract (groups.edge_group_offsets.getD slot 0)
    (groups.edge_group_offsets.getD (slot + 1) 0)

-- A run-length encoding of the timestamps of every outgoing slot, which loses nothing, so
-- that the counts of the groups in a time window add up to the timestamps in it.
structure TimestampGroups.Lossless (groups : TimestampGroups) (graph : GraphView) : Prop where
  counts : groups.group_counts.length = groups.group_values.length
  offsets : Offsets groups.edge_group_offsets graph.edge_count groups.group_values.length
  ascending : ∀ slot edge, graph.outgoing_edges[slot]? = some edge →
    (groups.slot_groups slot).Pairwise fun a b => a.1 < b.1
  positive : ∀ slot edge, graph.outgoing_edges[slot]? = some edge →
    ∀ group ∈ groups.slot_groups slot, 0 < group.2
  expands : ∀ slot edge, graph.outgoing_edges[slot]? = some edge →
    CycleEnum.expand (groups.slot_groups slot) =
      graph.timestamps.extract edge.timestamp_begin edge.timestamp_end
  in_window : ∀ slot edge, graph.outgoing_edges[slot]? = some edge → ∀ previous window_end,
    ∃ range, CycleEnum.timestamps_after graph.timestamps edge.timestamp_begin edge.timestamp_end
        previous window_end = .ok range ∧
      (((groups.slot_groups slot).filter fun group =>
        decide (previous < group.1 ∧ group.1 ≤ window_end)).map (·.2)).sum = range.size

section Edge

variable {timestamps : List Int} {timestamp_end : Nat}

theorem extract_cons {offset : Nat} (h : offset < timestamp_end)
    (hlen : timestamp_end ≤ timestamps.length) :
    timestamps.extract offset timestamp_end =
      timestamp_at timestamps offset :: timestamps.extract (offset + 1) timestamp_end := by
  obtain ⟨time, htime, hextract⟩ := extract_cons_of_lt timestamps h hlen
  rw [hextract, timestamp_at, List.getD_eq_getElem?_getD, htime, Option.getD_some]

-- The inner loop counts the leading part that has the value, and leaves the rest.
theorem count_run_eq (hlen : timestamp_end ≤ timestamps.length) (value : Int) (count offset : Nat) :
    (count_run timestamps timestamp_end value count offset).1 =
        count + ((timestamps.extract offset timestamp_end).takeWhile (· = value)).length ∧
      timestamps.extract (count_run timestamps timestamp_end value count offset).2 timestamp_end =
        (timestamps.extract offset timestamp_end).dropWhile (· = value) := by
  induction count, offset using count_run.induct timestamps timestamp_end value with
  | case1 count offset h ih =>
      rw [count_run, if_pos h, extract_cons h.1 hlen, List.takeWhile_cons_of_pos (by simp [h.2]),
        List.dropWhile_cons_of_pos (by simp [h.2]), List.length_cons]
      exact ⟨by omega, ih.2⟩
  | case2 count offset h =>
      rw [count_run, if_neg h]
      by_cases hlt : offset < timestamp_end
      · have hne : ¬timestamp_at timestamps offset = value := fun heq => h ⟨hlt, heq⟩
        rw [extract_cons hlt hlen, List.takeWhile_cons_of_neg (by simp [hne]),
          List.dropWhile_cons_of_neg (by simp [hne])]
        exact ⟨rfl, rfl⟩
      · rw [extract_eq_nil timestamps (Nat.le_of_not_lt hlt)]
        exact ⟨rfl, rfl⟩

theorem group_edge_eq (hlen : timestamp_end ≤ timestamps.length) (offset : Nat)
    (groups : TimestampGroups) :
    group_edge timestamps timestamp_end offset groups =
      { groups with
        group_values := groups.group_values ++
          (runs (timestamps.extract offset timestamp_end)).map (·.1)
        group_counts := groups.group_counts ++
          (runs (timestamps.extract offset timestamp_end)).map (·.2) } := by
  induction offset, groups using group_edge.induct timestamps timestamp_end with
  | case1 offset groups h value run ih =>
      have hrun : run = count_run timestamps timestamp_end value (0 + 1) (offset + 1) := by
        change count_run timestamps timestamp_end value 0 offset = _
        rw [count_run, if_pos ⟨h, rfl⟩]
      obtain ⟨hcount, hrest⟩ := count_run_eq hlen value (0 + 1) (offset + 1)
      rw [← hrun] at hcount hrest
      rw [group_edge, if_pos h, extract_cons h hlen, runs_cons]
      refine ih.trans ?_
      rw [hrest, hcount]
      simp [value, Nat.add_comm]
  | case2 offset groups h =>
      rw [group_edge, if_neg h, extract_eq_nil timestamps (Nat.le_of_not_lt h)]
      simp [runs]

end Edge

-- The groups of an edge, before they are put in one array.
def edge_groups (timestamps : List Int) (edge : AdjacencyEntry) : List (Int × Nat) :=
  runs (timestamps.extract edge.timestamp_begin edge.timestamp_end)

theorem foldl_groups {timestamps : List Int} {edges : List AdjacencyEntry}
    (hlen : ∀ edge ∈ edges, edge.timestamp_end ≤ timestamps.length) (groups : TimestampGroups) :
    edges.foldl (fun groups edge =>
        let groups := group_edge timestamps edge.timestamp_end edge.timestamp_begin groups
        { groups with
          edge_group_offsets := groups.edge_group_offsets ++ [groups.group_values.length] }) groups =
      ⟨groups.edge_group_offsets ++ (List.range edges.length).map fun slot =>
          groups.group_values.length +
            ((edges.map (edge_groups timestamps)).take (slot + 1)).flatten.length,
        groups.group_values ++ (edges.map (edge_groups timestamps)).flatten.map (·.1),
        groups.group_counts ++ (edges.map (edge_groups timestamps)).flatten.map (·.2)⟩ := by
  induction edges generalizing groups with
  | nil => simp
  | cons edge edges ih =>
      rw [List.foldl_cons, group_edge_eq (hlen edge List.mem_cons_self),
        ih fun other ho => hlen other (List.mem_cons_of_mem edge ho), List.length_cons,
        List.range_succ_eq_map]
      simp [edge_groups, Nat.add_assoc, Function.comp_def]

section Groups

variable {graph : GraphView}

theorem build_outgoing_timestamp_groups_eq
    (hlen : ∀ edge ∈ graph.outgoing_edges, edge.timestamp_end ≤ graph.timestamps.length) :
    build_outgoing_timestamp_groups graph =
      let rows := graph.outgoing_edges.map (edge_groups graph.timestamps)
      ⟨(concat_rows rows).1, (concat_rows rows).2.map (·.1), (concat_rows rows).2.map (·.2)⟩ := by
  dsimp only
  rw [build_outgoing_timestamp_groups, foldl_groups hlen, concat_rows_eq, List.length_map,
    List.range_succ_eq_map]
  simp [Function.comp_def]

-- Every outgoing slot has a nondecreasing list of timestamps.
theorem slot_slices (hg : Parsed graph) : ∀ edge ∈ graph.outgoing_edges,
    Slice graph.timestamps edge.timestamp_begin edge.timestamp_end := by
  intro edge he
  obtain ⟨rows, hrows⟩ := hg
  have hf := faithful_of_build (parsed_graph_endpoints rows) hrows
  obtain ⟨v, -, hrow⟩ := hf.outgoing.offsets.mem_row he
  exact slices_of_build (parsed_graph_sorted rows) hrows v edge hrow

theorem slice_pairwise {timestamps : List Int} {first last : Nat}
    (h : Slice timestamps first last) : (timestamps.extract first last).Pairwise (· ≤ ·) := by
  have hlen := h.le_length
  rw [extract_pairwise_iff hlen]
  intro i j x y hf hij hl hx hy
  have hsorted := h.sorted i j hf (Nat.le_of_lt hij) hl
  rwa [timestamp_at, timestamp_at, List.getD_eq_getElem?_getD, List.getD_eq_getElem?_getD, hx, hy]
    at hsorted

-- How many timestamps a lookup finds.
theorem timestamps_after_size {timestamps : List Int} {first last : Nat}
    (h : Slice timestamps first last) (previous window_end : Int) :
    ∃ range, CycleEnum.timestamps_after timestamps first last previous window_end = .ok range ∧
      range.size = (timestamps.extract first last).countP fun time =>
        previous < time ∧ time ≤ window_end := by
  obtain ⟨range, hok, hoffsets⟩ := timestamps_after_spec h previous window_end
  refine ⟨range, hok, ?_⟩
  have hle := h.le
  have hlen := h.le_length
  have hmap : timestamps.extract first last =
      (List.range' first (last - first)).map (timestamp_at timestamps) := by
    apply List.ext_getElem
    · simp
      omega
    · intro k hk hk'
      simp only [List.length_map, List.length_range'] at hk'
      rw [List.getElem_map, List.getElem_range', timestamp_at, List.getD_eq_getElem?_getD,
        List.getElem?_eq_getElem (by omega)]
      simp
  rw [range.size_eq, hoffsets, hmap, List.countP_map, List.countP_eq_length_filter]
  rfl

-- The groups between the two offsets of a slot are the runs of its timestamps.
theorem slot_groups (hg : Parsed graph) {slot : Nat} {edge : AdjacencyEntry}
    (hslot : graph.outgoing_edges[slot]? = some edge) :
    (build_outgoing_timestamp_groups graph).slot_groups slot = edge_groups graph.timestamps edge := by
  have hzip : ∀ groups : List (Int × Nat), (groups.map (·.1)).zip (groups.map (·.2)) = groups :=
    fun groups => (List.zip_of_prod rfl rfl).symm
  rw [build_outgoing_timestamp_groups_eq fun other ho => (slot_slices hg other ho).le_length,
    TimestampGroups.slot_groups]
  dsimp only
  rw [hzip, ← stored_row, extract_concat_rows, List.getD_eq_getElem?_getD, List.getElem?_map, hslot]
  rfl

theorem build_outgoing_timestamp_groups_lossless (hg : Parsed graph) :
    (build_outgoing_timestamp_groups graph).Lossless graph := by
  have hlen : ∀ edge ∈ graph.outgoing_edges, edge.timestamp_end ≤ graph.timestamps.length :=
    fun edge he => (slot_slices hg edge he).le_length
  refine ⟨?_, ?_, fun slot edge hslot => ?_, fun slot edge hslot => ?_, fun slot edge hslot => ?_,
    fun slot edge hslot previous window_end => ?_⟩
  · rw [build_outgoing_timestamp_groups_eq hlen]
    simp
  · have hoffsets := concat_rows_offsets (graph.outgoing_edges.map (edge_groups graph.timestamps))
    rw [List.length_map] at hoffsets
    rw [build_outgoing_timestamp_groups_eq hlen]
    simpa [GraphView.edge_count] using hoffsets
  · rw [slot_groups hg hslot]
    exact runs_pairwise (slice_pairwise (slot_slices hg edge (List.mem_of_getElem? hslot)))
  · rw [slot_groups hg hslot]
    exact runs_pos _
  · rw [slot_groups hg hslot]
    exact expand_runs _
  · obtain ⟨range, hok, hsize⟩ := timestamps_after_size
      (slot_slices hg edge (List.mem_of_getElem? hslot)) previous window_end
    refine ⟨range, hok, ?_⟩
    rw [hsize, slot_groups hg hslot,
      ← countP_expand (fun time => decide (previous < time ∧ time ≤ window_end)), edge_groups,
      expand_runs]

theorem build_outgoing_timestamp_groups_lossless_sample :
    (build_outgoing_timestamp_groups (view_of sample_rows)).Lossless (view_of sample_rows) :=
  build_outgoing_timestamp_groups_lossless sample_parsed

end Groups

end CycleEnum.Cuda
