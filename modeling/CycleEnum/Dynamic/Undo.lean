import CycleEnum.Dynamic.UpdateHost

namespace CycleEnum.Dynamic

-- What takes a batch back.
def EdgeBatch.inverse (batch : EdgeBatch) : EdgeBatch := ⟨batch.insertions, batch.deletions⟩

section Rows

variable {graph other : DirectedGraph}

theorem DirectedGraph.Valid.flatten_take (hg : graph.Valid) {v : Nat} (hv : v ≤ graph.vertex_count) :
    (((List.range graph.vertex_count).map graph.row).take v).flatten =
      graph.neighbors.take (graph.offsets.getD v 0) := by
  induction v with
  | zero =>
      rw [hg.start, List.take_zero, List.take_zero, List.flatten_nil]
  | succ v ih =>
      have hlt : v < ((List.range graph.vertex_count).map graph.row).length := by simpa using hv
      have hbounds := hg.row_bounds (show v < graph.vertex_count by omega)
      rw [List.take_succ_eq_append_getElem hlt, List.flatten_append, ih (by omega),
        List.flatten_singleton, List.getElem_map, List.getElem_range, DirectedGraph.row,
        stored_row, List.extract_eq_take_drop, ← List.take_add, Nat.add_sub_cancel' hbounds.1]

-- A graph in this form is given by its rows.
theorem DirectedGraph.Valid.eq_concat_rows (hg : graph.Valid) :
    graph = ⟨graph.vertex_count, (concat_rows ((List.range graph.vertex_count).map graph.row)).1,
      (concat_rows ((List.range graph.vertex_count).map graph.row)).2⟩ := by
  have hlength := hg.offsets.length
  have hfinish : graph.offsets.getD graph.vertex_count 0 = graph.neighbors.length := by
    rw [List.getD_eq_getElem?_getD, hg.offsets.finish]
    rfl
  have hneighbors : ((List.range graph.vertex_count).map graph.row).flatten = graph.neighbors := by
    have hall := hg.flatten_take (Nat.le_refl _)
    rwa [hfinish, List.take_length, List.take_of_length_le (by simp)] at hall
  have hoffsets : graph.offsets = (List.range (graph.vertex_count + 1)).map fun v =>
      (((List.range graph.vertex_count).map graph.row).take v).flatten.length := by
    refine List.ext_getElem (by simpa using hlength) fun v hv _ => ?_
    have hle : graph.offsets[v] ≤ graph.neighbors.length :=
      hg.offsets.le_size _ (List.getElem_mem hv)
    rw [List.getElem_map, List.getElem_range, hg.flatten_take (by omega), List.length_take,
      List.getD_eq_getElem _ _ hv, Nat.min_eq_left hle]
  rw [concat_rows_eq]
  obtain ⟨vertex_count, offsets, neighbors⟩ := graph
  simp only [List.length_map, List.length_range, DirectedGraph.mk.injEq, true_and]
  exact ⟨hoffsets, hneighbors.symm⟩

theorem DirectedGraph.Valid.ext (hg : graph.Valid) (ho : other.Valid)
    (hcount : graph.vertex_count = other.vertex_count) (hrows : ∀ v, graph.row v = other.row v) :
    graph = other := by
  rw [hg.eq_concat_rows, ho.eq_concat_rows, hcount, funext hrows]

end Rows

section Inverse

variable {graph : DirectedGraph} {batch : EdgeBatch}

theorem inverse_fits (hg : graph.WellFormed) (hb : batch.Fits graph) :
    batch.inverse.Fits (apply_batch graph batch) := by
  have hswap : ∀ change, change ∈ batch.inverse.deletions ++ batch.inverse.insertions ↔
      change ∈ batch.deletions ++ batch.insertions := fun change => by
    simp only [EdgeBatch.inverse, List.mem_append, or_comm]
  refine ⟨fun change hc => hb.vertices change ((hswap change).mp hc),
    fun change hc => hb.no_loop change ((hswap change).mp hc),
    fun change hc => (mem_apply_batch hg hb).mpr (Or.inr hc), fun change hc => ?_⟩
  rw [mem_apply_batch hg hb]
  by_cases hins : change ∈ batch.insertions
  · exact Or.inr hins
  · refine Or.inl fun hmem => ?_
    rcases hmem with ⟨-, hkept⟩ | hmem
    · exact hkept hc
    · exact hins hmem

theorem mem_row_inverse (hg : graph.WellFormed) (hb : batch.Fits graph) (a b : Nat) :
    b ∈ (apply_batch (apply_batch graph batch) batch.inverse).row a ↔ b ∈ graph.row a := by
  rw [mem_apply_batch (apply_batch_well_formed hg hb) (inverse_fits hg hb)]
  simp only [EdgeBatch.inverse]
  rw [← unchanged_edge_iff hg hb]
  constructor
  · rintro (⟨hrow, -⟩ | hdeleted)
    · exact hrow
    · exact hb.deletions _ hdeleted
  · intro hrow
    by_cases hdeleted : ⟨a, b⟩ ∈ batch.deletions
    · exact Or.inr hdeleted
    · exact Or.inl ⟨hrow, hdeleted⟩

theorem apply_batch_inverse (hg : graph.WellFormed) (hvalid : graph.Valid) (hb : batch.Fits graph) :
    apply_batch (apply_batch graph batch) batch.inverse = graph := by
  have hg' := apply_batch_well_formed hg hb
  have hfits := inverse_fits hg hb
  have hvalid' := apply_batch_valid (apply_batch_valid hvalid hb.vertices) hfits.vertices
  refine hvalid'.ext hvalid rfl fun v => ?_
  refine List.Perm.eq_of_pairwise' (apply_batch_ascending hg' _ v) (hg.ascending v) ?_
  exact (List.perm_ext_iff_of_nodup ((apply_batch_well_formed hg' hfits).row_nodup v)
    (hg.row_nodup v)).mpr fun b => mem_row_inverse hg hb v b

-- Room for a batch depends on the size of the graph alone.
theorem DeviceRoom.congr {other : DirectedGraph} {max_cycle_length : Nat}
    (h : DeviceRoom graph batch max_cycle_length) (hcount : graph.vertex_count = other.vertex_count) :
    DeviceRoom other batch max_cycle_length :=
  ⟨hcount ▸ h.vertices, h.max_length, hcount ▸ h.deletions_allocated, hcount ▸ h.insertions_allocated⟩

end Inverse

end CycleEnum.Dynamic
