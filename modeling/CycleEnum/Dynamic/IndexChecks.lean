import CycleEnum.Dynamic.Rebuild
import CycleEnum.Dynamic.UpdateSequential

namespace CycleEnum.Dynamic

open CycleEnum.Enumeration CycleEnum.Sequential

-- `search` with a test before every access to `offsets` and to `visited`.
def checked_search (graph : DirectedGraph) (size u v owner_id : Nat)
    (phase_changes : ChangedEdgeIndex) (max_length : Nat) :
    Nat → Nat → Nat → EdgeSearch → Except Error EdgeSearch
  | 0, _, _, _ => throw .unfinished
  | fuel + 1, current, path_size, state =>
      if graph.offsets.length ≤ current ∨ graph.offsets.length ≤ next_id current then throw .undefined
      else (graph.read_row current).foldlM (fun state next => do
        if phase_changes.forbidden_before current next owner_id then return state
        else if next = u then
          let length := path_size + 1
          if 2 ≤ length ∧ length ≤ max_length then
            return { state with counts := count_one state.counts length }
          else return state
        else if next = v then return state
        else if size ≤ next then throw .undefined
        else if state.visited next then return state
        else if path_size + 1 < max_length then do
          let state ← checked_search graph size u v owner_id phase_changes max_length fuel next
            (path_size + 1) { state with visited := state.visited.set next true }
          return { state with visited := state.visited.set next false }
        else return state) state

def checked_count_cycles_through_edge (graph : DirectedGraph) (source target owner_id : Nat)
    (phase_changes : ChangedEdgeIndex) (max_length : Nat) (counts : List Nat)
    (buffer : VisitedBuffer) : Except Error (List Nat × VisitedBuffer) := do
  if max_length < 2 ∨ target ≥ graph.vertex_count ∨ source ≥ graph.vertex_count then
    return (counts, buffer)
  else do
    let buffer := buffer.grow graph.vertex_count
    let state ← checked_search graph buffer.size source target owner_id phase_changes max_length
      graph.vertex_count target 1 ⟨(buffer.visited.set source true).set target true, counts⟩
    return (state.counts,
      { buffer with visited := (state.visited.set source false).set target false })

variable {graph : DirectedGraph} {batch : EdgeBatch}

-- A graph after a batch, also as the steps of the source build it, with the searches of the
-- insert phase and the view.
structure AdjacencyKept (graph : DirectedGraph) (batch : EdgeBatch) : Prop where
  bounded : ∀ next ∈ (apply_batch graph batch).neighbors, next < graph.vertex_count
  rebuilt : graph.Valid →
    ∀ next ∈ (Rebuild.apply_batch graph batch).neighbors, next < graph.vertex_count
  searches : ∀ owner_id change, (normalize batch).insertions[owner_id]? = some change →
    ∀ max_length counts buffer,
      let final_graph := apply_batch graph (normalize batch)
      let index := ChangedEdgeIndex.of_changes (normalize batch).insertions
      checked_count_cycles_through_edge final_graph change.source change.target owner_id index
          max_length counts buffer =
        count_cycles_through_edge final_graph change.source change.target owner_id index
          max_length counts buffer
  edges : ∀ edge ∈ (temporal_graph (apply_batch graph batch)).edges,
    edge.source < graph.vertex_count ∧ edge.target < graph.vertex_count
  rows : ∀ view, to_graph_view (apply_batch graph batch) = .ok view → ∀ v,
    ∀ entry ∈ view.outgoing_entries v ++ view.incoming_entries v, entry.vertex < view.vertex_count

section Checked

variable {size u v owner_id max_length : Nat} {phase_changes : ChangedEdgeIndex}

theorem foldlM_agree {α σ : Type} {step step' : σ → α → Except Error σ} {l : List α}
    (h : ∀ a ∈ l, ∀ state, step state a = step' state a) (state : σ) :
    l.foldlM step state = l.foldlM step' state := by
  induction l generalizing state with
  | nil => rfl
  | cons a l ih =>
      rw [List.foldlM_cons, List.foldlM_cons, h a List.mem_cons_self]
      exact congrArg _ (funext fun state => ih (fun b hb => h b (List.mem_cons_of_mem _ hb)) state)

-- Where every neighbour is a vertex, no test fails.
theorem checked_search_eq (hoffsets : graph.vertex_count < graph.offsets.length)
    (hbounded : ∀ a, ∀ next ∈ graph.read_row a, next < graph.vertex_count)
    (hsize : graph.vertex_count ≤ size) (fuel : Nat) {current : Nat}
    (hcurrent : current < graph.vertex_count) (path_size : Nat) (state : EdgeSearch) :
    checked_search graph size u v owner_id phase_changes max_length fuel current path_size state =
      search graph u v owner_id phase_changes max_length fuel current path_size state := by
  induction fuel generalizing current path_size state with
  | zero => rfl
  | succ fuel ih =>
      have hlast : next_id current ≤ graph.vertex_count := by
        unfold next_id
        split_ifs <;> omega
      rw [checked_search, search, if_neg (by omega)]
      refine foldlM_agree (fun next hnext state => ?_) state
      have hnext := hbounded current next hnext
      have hsmall : ¬size ≤ next := by omega
      simp only [if_neg hsmall, ih hnext]
      by_cases hv : next = v
      · simp only [if_pos hv, if_pos (Or.inl hv)]
      · have hor : (next = v ∨ state.visited next = true) ↔ state.visited next = true :=
          or_iff_right hv
        simp only [if_neg hv, hor]

theorem checked_count_eq (hoffsets : graph.vertex_count < graph.offsets.length)
    (hbounded : ∀ a, ∀ next ∈ graph.read_row a, next < graph.vertex_count) (source target : Nat)
    (counts : List Nat) (buffer : VisitedBuffer) :
    checked_count_cycles_through_edge graph source target owner_id phase_changes max_length counts
        buffer =
      count_cycles_through_edge graph source target owner_id phase_changes max_length counts
        buffer := by
  unfold checked_count_cycles_through_edge count_cycles_through_edge
  split_ifs with h
  · rfl
  · rw [not_or, not_or] at h
    have hgrown : graph.vertex_count ≤ (buffer.grow graph.vertex_count).size := by
      unfold VisitedBuffer.grow
      split_ifs with hsize
      · exact Nat.le_refl _
      · exact Nat.le_of_not_lt hsize
    dsimp only
    rw [checked_search_eq hoffsets hbounded hgrown _ (Nat.lt_of_not_le h.2.1)]

end Checked

-- The neighbours after a batch.
theorem mem_apply_batch_neighbors_iff {next : Nat} :
    next ∈ (apply_batch graph batch).neighbors ↔ ∃ v < graph.vertex_count,
      (next ∈ graph.row v ∧ ⟨v, next⟩ ∉ batch.deletions) ∨ ⟨v, next⟩ ∈ batch.insertions := by
  have hrows : next ∈ (apply_batch graph batch).neighbors ↔
      ∃ v < graph.vertex_count, next ∈ (apply_batch graph batch).row v := by
    constructor
    · intro hn
      exact (apply_batch_offsets graph batch).mem_row hn
    · intro h
      obtain ⟨v, -, hn⟩ := h
      obtain ⟨i, -, -, hi⟩ := mem_extract_iff.mp hn
      exact List.mem_of_getElem? hi
  rw [hrows]
  refine exists_congr fun v => and_congr_right fun hv => ?_
  rw [apply_batch_row, if_pos hv]
  split_ifs with ht
  · exact mem_rebuilt
  · obtain ⟨hdel, hins⟩ := not_mem_of_not_touched next ht
    simp [hdel, hins]

section Kept

theorem mem_neighbors_of_row {v next : Nat} (h : next ∈ graph.row v) : next ∈ graph.neighbors := by
  obtain ⟨i, -, -, hi⟩ := mem_extract_iff.mp h
  exact List.mem_of_getElem? hi

theorem bounded_iff (hbounded : ∀ next ∈ graph.neighbors, next < graph.vertex_count)
    (batch : EdgeBatch) :
    (∀ next ∈ (apply_batch graph batch).neighbors, next < graph.vertex_count) ↔
      ∀ change ∈ batch.insertions, change.source < graph.vertex_count →
        change.target < graph.vertex_count := by
  constructor
  · intro hnew change hchange hsource
    exact hnew _ (mem_apply_batch_neighbors_iff.mpr ⟨change.source, hsource, Or.inr hchange⟩)
  · intro hbatch next hnext
    obtain ⟨v, hv, hold | hins⟩ := mem_apply_batch_neighbors_iff.mp hnext
    · exact hbounded next (mem_neighbors_of_row hold.1)
    · exact hbatch ⟨v, next⟩ hins hv

-- The insert phase searches the graph after the normalized batch, which has the same changes.
theorem searches_in_range (hbounded : ∀ next ∈ graph.neighbors, next < graph.vertex_count)
    (hbatch : ∀ change ∈ batch.insertions, change.source < graph.vertex_count →
      change.target < graph.vertex_count) {a next : Nat}
    (hnext : next ∈ (apply_batch graph (normalize batch)).read_row a) : next < graph.vertex_count := by
  refine DirectedGraph.read_row_bounded ((bounded_iff hbounded (normalize batch)).mpr
    fun change hchange => ?_) a next hnext
  exact hbatch change (by simpa [normalize] using hchange)

theorem edges_in_range (hbounded : ∀ next ∈ graph.neighbors, next < graph.vertex_count)
    {edge : TemporalEdge} (hedge : edge ∈ (temporal_graph graph).edges) :
    edge.source < graph.vertex_count ∧ edge.target < graph.vertex_count := by
  obtain ⟨source, hsource, htarget⟩ := List.mem_flatMap.mp hedge
  obtain ⟨target, hrow, rfl⟩ := List.mem_map.mp htarget
  refine ⟨?_, hbounded target (mem_neighbors_of_row hrow)⟩
  exact lt_of_le_of_lt (Nat.mod_le _ _) (List.mem_range.mp hsource)

theorem rows_in_range (hbounded : ∀ next ∈ graph.neighbors, next < graph.vertex_count)
    {view : GraphView} (hview : to_graph_view graph = .ok view) (v : Nat) {entry : AdjacencyEntry}
    (hentry : entry ∈ view.outgoing_entries v ++ view.incoming_entries v) :
    entry.vertex < view.vertex_count := by
  have hends : ∀ edge ∈ (temporal_graph graph).edges,
      edge.source < (temporal_graph graph).vertex_count ∧
        edge.target < (temporal_graph graph).vertex_count := by
    intro edge hedge
    rw [temporal_graph_vertex_count]
    exact edges_in_range hbounded hedge
  have hfaithful := faithful_of_build hends hview
  rw [hfaithful.vertex_count]
  rcases List.mem_append.mp hentry with hout | hin
  · obtain ⟨i, edge, hedge, -, rfl⟩ :=
      hfaithful.outgoing.mem_row.mp hout
    exact (hends edge (List.mem_of_getElem? hedge)).2
  · obtain ⟨i, edge, hedge, -, rfl⟩ :=
      hfaithful.incoming.mem_row.mp hin
    exact (hends edge (List.mem_of_getElem? hedge)).1

-- A target outside the graph is stored with a source inside it, and only then does an
-- access go wrong.
theorem apply_batch_adjacency_kept_iff
    (hbounded : ∀ next ∈ graph.neighbors, next < graph.vertex_count) (batch : EdgeBatch) :
    AdjacencyKept graph batch ↔ ∀ change ∈ batch.insertions,
      change.source < graph.vertex_count → change.target < graph.vertex_count := by
  constructor
  · intro hkept
    exact (bounded_iff hbounded batch).mp hkept.bounded
  · intro hbatch
    have hnew := (bounded_iff hbounded batch).mpr hbatch
    refine ⟨hnew, fun hvalid => ?_, fun owner_id change _ max_length counts buffer => ?_,
      fun edge hedge => ?_, fun view hview v entry hentry => ?_⟩
    · rw [Rebuild.apply_batch_eq hvalid batch]
      exact hnew
    · apply checked_count_eq
      · have := (apply_batch_offsets graph (normalize batch)).length
        change graph.vertex_count < _
        omega
      · intro a next hnext
        exact searches_in_range hbounded hbatch hnext
    · exact edges_in_range hnew hedge
    · exact rows_in_range hnew hview v hentry

theorem apply_batch_adjacency_kept_iff_sample :
    AdjacencyKept ⟨3, [0, 1, 2, 3], [1, 2, 0]⟩ ⟨[⟨7, 9⟩], [⟨0, 2⟩, ⟨8, 5⟩]⟩ ↔
      ∀ change ∈ [⟨0, 2⟩, (⟨8, 5⟩ : EdgeChange)], change.source < 3 → change.target < 3 :=
  @apply_batch_adjacency_kept_iff ⟨3, [0, 1, 2, 3], [1, 2, 0]⟩ (by decide) _

-- The second insertion ends outside the graph. It is stored, and the search for cycles
-- through the first one follows it.
theorem apply_batch_adjacency_lost :
    (∀ next ∈ (⟨2, [0, 0, 0], []⟩ : DirectedGraph).neighbors, next < 2) ∧
      ¬AdjacencyKept ⟨2, [0, 0, 0], []⟩ ⟨[], [⟨0, 1⟩, ⟨1, 5⟩]⟩ ∧
      checked_count_cycles_through_edge (apply_batch ⟨2, [0, 0, 0], []⟩ ⟨[], [⟨0, 1⟩, ⟨1, 5⟩]⟩) 0 1 0
        (ChangedEdgeIndex.of_changes [⟨0, 1⟩, ⟨1, 5⟩]) 3 [0, 0, 0, 0] ⟨0, Flags.none⟩ =
          .error .undefined := by
  refine ⟨by simp, fun hkept => ?_, rfl⟩
  exact absurd (hkept.bounded 5 (by decide)) (by decide)

end Kept

end CycleEnum.Dynamic
