import CycleEnum.Dynamic.Recount

namespace CycleEnum.Dynamic

open CycleEnum.Enumeration CycleEnum.Sequential

-- What a caller keeps from one batch to the next.
structure StreamState where
  graph : DirectedGraph
  histogram : CycleHistogram
  buffer : VisitedBuffer

def update_step (max_cycle_length : Nat) (state : StreamState) (batch : EdgeBatch) :
    Except Error StreamState := do
  let (histogram, buffer) ← update_static_histogram state.graph state.histogram batch
    max_cycle_length state.buffer
  return ⟨apply_batch state.graph batch, histogram, buffer⟩

-- Batches that fit the graphs they meet, none of which has counts out of range.
def Streamable (max_cycle_length : Nat) : DirectedGraph → List EdgeBatch → Prop
  | graph, [] => CountsFit graph max_cycle_length
  | graph, batch :: batches => CountsFit graph max_cycle_length ∧ batch.Fits graph ∧
      Streamable max_cycle_length (apply_batch graph batch) batches

structure UpToDate (max_cycle_length : Nat) (state : StreamState) : Prop where
  well_formed : state.graph.WellFormed
  histogram : recount state.graph max_cycle_length = .ok state.histogram
  clear : state.buffer.visited = Flags.none

variable {graph : DirectedGraph} {max_cycle_length : Nat} {batch : EdgeBatch}
  {batches : List EdgeBatch}

theorem Streamable.counts_fit (h : Streamable max_cycle_length graph batches) :
    CountsFit graph max_cycle_length := by
  cases batches with
  | nil => exact h
  | cons batch batches => exact h.1

theorem Streamable.front {front back : List EdgeBatch}
    (h : Streamable max_cycle_length graph (front ++ back)) :
    Streamable max_cycle_length graph front := by
  induction front generalizing graph with
  | nil => exact h.counts_fit
  | cons batch front ih => exact ⟨h.1, h.2.1, ih h.2.2⟩

theorem update_step_up_to_date (hmax : 2 ≤ max_cycle_length)
    (hfew : max_cycle_length + 1 ≤ MAX_PLACES) {state : StreamState}
    (hstate : UpToDate max_cycle_length state) (h : CountsFit state.graph max_cycle_length)
    (hb : batch.Fits state.graph) (h' : CountsFit (apply_batch state.graph batch) max_cycle_length) :
    ∃ state', update_step max_cycle_length state batch = .ok state' ∧
      state'.graph = apply_batch state.graph batch ∧ UpToDate max_cycle_length state' := by
  have hg := hstate.well_formed
  have hg' := apply_batch_well_formed hg hb
  obtain ⟨before, hbefore, hcounted⟩ := recount_eq hg hmax h
  obtain rfl : before = state.histogram := Except.ok.inj (hbefore.symm.trans hstate.histogram)
  obtain ⟨histogram, buffer, hrun, hupdated, hclear⟩ := update_static_histogram_eq hg hmax
    hfew hb (h.countable hg) (h'.countable hg') hcounted hstate.clear
  obtain ⟨after, hafter, hcounted'⟩ := recount_eq hg' hmax h'
  refine ⟨⟨apply_batch state.graph batch, histogram, buffer⟩, ?_, rfl, hg', ?_, hclear⟩
  · rw [update_step, hrun]
    rfl
  · rw [hafter, hcounted'.unique hupdated]

theorem stream_up_to_date (hmax : 2 ≤ max_cycle_length)
    (hfew : max_cycle_length + 1 ≤ MAX_PLACES) (batches : List EdgeBatch)
    {state : StreamState} (hstate : UpToDate max_cycle_length state)
    (h : Streamable max_cycle_length state.graph batches) :
    ∃ state', batches.foldlM (update_step max_cycle_length) state = .ok state' ∧
      state'.graph = batches.foldl apply_batch state.graph ∧ UpToDate max_cycle_length state' := by
  induction batches generalizing state with
  | nil => exact ⟨state, rfl, rfl, hstate⟩
  | cons batch batches ih =>
      obtain ⟨hfit, hb, hrest⟩ := h
      obtain ⟨state₁, hstep, hgraph, hstate₁⟩ :=
        update_step_up_to_date hmax hfew hstate hfit hb hrest.counts_fit
      obtain ⟨state', hrun, hgraph', hstate'⟩ := ih hstate₁ (hgraph ▸ hrest)
      refine ⟨state', ?_, by rw [hgraph', hgraph, List.foldl_cons], hstate'⟩
      rw [List.foldlM_cons, hstep]
      exact hrun

-- A histogram that is updated batch by batch is what a full count of the graph
-- gives, after every batch, as long as the loops over the vertices end and there is a
-- vector with a place for every length.
theorem update_static_histogram_exact (hmax : 2 ≤ max_cycle_length)
    (hfew : max_cycle_length + 1 ≤ MAX_PLACES) (hg : graph.WellFormed)
    (h : Streamable max_cycle_length graph batches) {histogram : CycleHistogram}
    (hstart : recount graph max_cycle_length = .ok histogram) {buffer : VisitedBuffer}
    (hclear : buffer.visited = Flags.none) (front : List EdgeBatch) (hfront : front <+: batches) :
    ∃ state, front.foldlM (update_step max_cycle_length) ⟨graph, histogram, buffer⟩ = .ok state ∧
      state.graph = front.foldl apply_batch graph ∧
      recount state.graph max_cycle_length = .ok state.histogram := by
  obtain ⟨back, rfl⟩ := hfront
  have hfirst : UpToDate max_cycle_length ⟨graph, histogram, buffer⟩ := ⟨hg, hstart, hclear⟩
  obtain ⟨state, hrun, hgraph, hstate⟩ := stream_up_to_date hmax hfew front hfirst h.front
  exact ⟨state, hrun, hgraph, hstate.histogram⟩

-- A full count that returns small counts shows that they fit.
theorem counts_fit_of_recount (hg : graph.WellFormed) (hmax : 2 ≤ max_cycle_length)
    (h : ∃ histogram ∈ (recount graph max_cycle_length).toOption,
      ∀ k ≤ max_cycle_length, histogram.count k < 2 ^ 63) :
    CountsFit graph max_cycle_length := by
  obtain ⟨histogram, h, hsmall⟩ := h
  rw [recount] at h
  cases hview : to_graph_view graph with
  | error e =>
      rw [hview] at h
      cases h
  | ok view =>
      have hw := to_graph_view_well_formed hg hview
      rw [hview] at h
      change (count_simple_cycles_johnson view (some max_cycle_length)).toOption = some histogram at h
      rw [count_simple_cycles_johnson_eq hw (by simpa using hmax)] at h
      cases hrecord : (∅ : CycleHistogram).record (static_events view (some max_cycle_length)) with
      | error e =>
          rw [hrecord] at h
          cases h
      | ok found =>
          rw [hrecord] at h
          obtain rfl : found = histogram := Option.some.inj h
          have hcount := (CycleHistogram.record_count (static_events_two_le hw) hrecord).2
          refine ⟨view, hview, fun k h₁ h₂ => ?_⟩
          have hcap : ∀ limit ∈ some max_cycle_length, k ≤ limit := by simpa using h₂
          rw [← static_tally_eq hw h₁ hcap, ← hcount]
          exact hsmall k h₂

section Sample

def empty_graph : DirectedGraph := ⟨3, [0, 0, 0, 0], []⟩

theorem empty_graph_row (v : Nat) : empty_graph.row v = [] := by
  simp [empty_graph, DirectedGraph.row, stored_row]

theorem empty_graph_well_formed : empty_graph.WellFormed := by
  refine ⟨rfl, rfl, fun v => ?_, fun v => ?_, fun v => ?_, by decide⟩ <;> simp [empty_graph_row]

-- The second batch deletes an edge and inserts it again.
def sample_batches : List EdgeBatch :=
  [⟨[], [⟨2, 0⟩, ⟨0, 1⟩, ⟨1, 2⟩]⟩, ⟨[⟨1, 2⟩, ⟨0, 1⟩], [⟨0, 1⟩, ⟨1, 0⟩]⟩]

theorem sample_streamable : Streamable 3 empty_graph sample_batches := by
  have hb₁ : EdgeBatch.Fits ⟨[], [⟨2, 0⟩, ⟨0, 1⟩, ⟨1, 2⟩]⟩ empty_graph :=
    ⟨by decide, by decide, by decide, by decide⟩
  have hg₁ := apply_batch_well_formed empty_graph_well_formed hb₁
  have hb₂ : EdgeBatch.Fits ⟨[⟨1, 2⟩, ⟨0, 1⟩], [⟨0, 1⟩, ⟨1, 0⟩]⟩
      (apply_batch empty_graph ⟨[], [⟨2, 0⟩, ⟨0, 1⟩, ⟨1, 2⟩]⟩) :=
    ⟨by decide, by decide, by decide, by decide⟩
  have hg₂ := apply_batch_well_formed hg₁ hb₂
  exact ⟨counts_fit_of_recount empty_graph_well_formed (by decide) (by decide +kernel), hb₁,
    counts_fit_of_recount hg₁ (by decide) (by decide +kernel), hb₂,
    counts_fit_of_recount hg₂ (by decide) (by decide +kernel)⟩

theorem update_static_histogram_exact_sample : ∃ state,
    sample_batches.foldlM (update_step 3) ⟨empty_graph, ∅, ⟨0, Flags.none⟩⟩ = .ok state ∧
      state.graph = sample_batches.foldl apply_batch empty_graph ∧
      recount state.graph 3 = .ok state.histogram :=
  update_static_histogram_exact (by decide) (by decide) empty_graph_well_formed sample_streamable
    (by decide +kernel) rfl sample_batches (List.prefix_refl _)

-- No vector has a place for each of so many lengths, and what its constructor throws is a
-- `logic_error`, though the batch changes nothing.
theorem update_static_histogram_unallocated :
    empty_graph.WellFormed ∧ Streamable (2 ^ 60 - 1) empty_graph [⟨[], []⟩] ∧
      ∃ histogram, recount empty_graph (2 ^ 60 - 1) = .ok histogram ∧
        [⟨[], []⟩].foldlM (update_step (2 ^ 60 - 1)) ⟨empty_graph, histogram, ⟨0, Flags.none⟩⟩ =
          .error (.logic_error "cannot create std::vector larger than max_size()") := by
  obtain ⟨view, hview⟩ : ∃ view, to_graph_view empty_graph = .ok view := ⟨_, rfl⟩
  have hnone : ∀ k, 2 ≤ k → cycles_of (fun a b => b ∈ empty_graph.row a) k = ∅ := fun k hk => by
    refine Set.eq_empty_iff_forall_notMem.mpr fun c hc => ?_
    obtain ⟨x, hx⟩ := exists_mem_of_length_pos (show 0 < c.length by rw [hc.2.1]; omega)
    obtain ⟨next, hf⟩ := exists_follower (hc.2.1.symm ▸ hk) hx
    have harc := (chain_iff_follows _ _ (hc.2.1.symm ▸ hk)).mp hc.2.2 x next hf
    simp [empty_graph_row] at harc
  have hfit : CountsFit empty_graph (2 ^ 60 - 1) := ⟨view, hview, fun k hk _ => by
    rw [simple_cycles_eq empty_graph_well_formed hview, hnone k hk, Set.ncard_empty]
    decide⟩
  have hb : EdgeBatch.Fits ⟨[], []⟩ empty_graph := ⟨by decide, by decide, by decide, by decide⟩
  obtain ⟨histogram, hrun, -⟩ := recount_eq empty_graph_well_formed (by decide) hfit
  exact ⟨empty_graph_well_formed, ⟨hfit, hb, hfit⟩, histogram, hrun, rfl⟩

end Sample

end CycleEnum.Dynamic
