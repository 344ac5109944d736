import CycleEnum.Dynamic.UpdateSequential
import CycleEnum.Sequential.Endless
import CycleEnum.Sequential.JohnsonClosings

namespace CycleEnum.Dynamic

open CycleEnum.Enumeration CycleEnum.Sequential

-- The full count that an update is compared with.
def recount (graph : DirectedGraph) (max_cycle_length : Nat) : Except Error CycleHistogram := do
  count_simple_cycles_johnson (← to_graph_view graph) (some max_cycle_length)

noncomputable def cycle_number (graph : DirectedGraph) (k : Nat) : Nat :=
  (cycles_of (fun a b => b ∈ graph.row a) k).ncard

-- The graph has a view, and no count of it reaches the range of `long long`.
def CountsFit (graph : DirectedGraph) (max_cycle_length : Nat) : Prop :=
  ∃ view, to_graph_view graph = .ok view ∧
    ∀ k, 2 ≤ k → k ≤ max_cycle_length → (simple_cycles view k).ncard < 2 ^ 63

-- The histogram of the cycles of a graph up to a length.
structure Counted (graph : DirectedGraph) (max_cycle_length : Nat) (histogram : CycleHistogram) :
    Prop where
  canonical : histogram.Canonical
  count_eq : ∀ k, histogram.count k =
    if 2 ≤ k ∧ k ≤ max_cycle_length then cycle_number graph k else 0

variable {graph : DirectedGraph} {max_cycle_length : Nat} {batch : EdgeBatch}

theorem Counted.unique {a b : CycleHistogram} (ha : Counted graph max_cycle_length a)
    (hb : Counted graph max_cycle_length b) : a = b :=
  ha.canonical.ext hb.canonical fun k => by rw [ha.count_eq, hb.count_eq]

-- What a graph that fits is known to satisfy.
structure Countable (graph : DirectedGraph) (max_cycle_length : Nat) : Prop where
  finite : ∀ k, 2 ≤ k → (cycles_of (fun a b => b ∈ graph.row a) k).Finite
  small : ∀ k, 2 ≤ k → k ≤ max_cycle_length → cycle_number graph k < 2 ^ 63
  narrow : ∀ k, 2 ≤ k → cycle_number graph k ≠ 0 → k < 2 ^ 32

theorem CountsFit.countable (hg : graph.WellFormed) (h : CountsFit graph max_cycle_length) :
    Countable graph max_cycle_length := by
  obtain ⟨view, hview, hsmall⟩ := h
  have hw := to_graph_view_well_formed hg hview
  have hcycles := simple_cycles_eq hg hview
  refine ⟨fun k hk => ?_, fun k h₁ h₂ => ?_, fun k hk hne => ?_⟩
  · rw [← hcycles]
    exact simple_cycles_finite hw hk
  · rw [cycle_number, ← hcycles]
    exact hsmall k h₁ h₂
  · rw [cycle_number, ← hcycles] at hne
    obtain ⟨c, hc⟩ := Set.nonempty_of_ncard_ne_zero hne
    exact length_lt_of_simple_cycle hw hk hc

theorem recount_eq (hg : graph.WellFormed) (hmax : 2 ≤ max_cycle_length)
    (h : CountsFit graph max_cycle_length) :
    ∃ histogram, recount graph max_cycle_length = .ok histogram ∧
      Counted graph max_cycle_length histogram := by
  obtain ⟨view, hview, hsmall⟩ := h
  have hw := to_graph_view_well_formed hg hview
  have htally : ∀ k, CycleHistogram.tally (static_events view (some max_cycle_length)) k =
      if 2 ≤ k ∧ k ≤ max_cycle_length then cycle_number graph k else 0 := by
    intro k
    split_ifs with hk
    · rw [static_tally_eq hw hk.1 (by simpa using hk.2), cycle_number, simple_cycles_eq hg hview]
    · by_cases htwo : 2 ≤ k
      · exact static_tally_beyond hw htwo (by simpa using fun hle => hk ⟨htwo, hle⟩)
      · exact CycleHistogram.tally_eq_zero (static_events_two_le hw) (by omega)
  have hfits : (∅ : CycleHistogram).Fits (static_events view (some max_cycle_length)) := by
    intro k
    rw [CycleHistogram.count_empty, htally, MAX_COUNT]
    split_ifs with hk
    · have := hsmall k hk.1 hk.2
      rw [simple_cycles_eq hg hview] at this
      rw [cycle_number]
      omega
    · omega
  obtain ⟨histogram, hrecord, hcount, hcanonical⟩ :=
    CycleHistogram.record_ok ∅ _ (static_events_two_le hw) hfits
  refine ⟨histogram, ?_, hcanonical CycleHistogram.canonical_empty, fun k => ?_⟩
  · rw [recount, hview]
    change count_simple_cycles_johnson view (some max_cycle_length) = _
    rw [count_simple_cycles_johnson_eq hw (by simpa using hmax), hrecord]
  · rw [hcount, CycleHistogram.count_empty, htally, Nat.zero_add]

-- From 2^32 vertices on the full count never ends.
theorem recount_endless (hcount : 2 ^ 32 ≤ graph.vertex_count) (histogram : CycleHistogram) :
    recount graph max_cycle_length ≠ .ok histogram := by
  intro h
  obtain ⟨view, hview, hrun⟩ := bind_ok h
  refine count_simple_cycles_johnson_endless ?_ histogram hrun
  rwa [(build_graph_view_ok hview).2.1, temporal_graph_vertex_count]

section Update

theorem deletions_phase (hb : batch.Fits graph) :
    PhaseChanges graph (normalize batch).deletions where
  nodup := sort_and_dedup_nodup _
  edges := (normalize_fits hb).deletions

theorem insertions_phase (hg : graph.WellFormed) (hb : batch.Fits graph) :
    PhaseChanges (apply_batch graph (normalize batch)) (normalize batch).insertions where
  nodup := sort_and_dedup_nodup _
  edges _ hc := (mem_apply_batch hg (normalize_fits hb)).mpr (Or.inr hc)

-- Normalizing the changes does not change the edges after them.
theorem mem_row_normalize_iff (hlength : graph.offsets.length = graph.vertex_count + 1)
    (hb : ∀ change ∈ batch.insertions, change.source < graph.vertex_count) {a b : Nat} :
    b ∈ (apply_batch graph (normalize batch)).row a ↔ b ∈ (apply_batch graph batch).row a := by
  rw [mem_apply_batch_iff hlength fun change hchange => hb change (mem_sort_and_dedup.mp hchange),
    mem_apply_batch_iff hlength hb]
  simp only [normalize, mem_sort_and_dedup]

theorem row_normalize (hg : graph.WellFormed) (hb : batch.Fits graph) :
    (fun a b => b ∈ (apply_batch graph (normalize batch)).row a) =
      fun a b => b ∈ (apply_batch graph batch).row a := by
  funext a b
  exact propext (mem_row_normalize_iff hg.offsets_length fun change hchange =>
    (hb.vertices change (List.mem_append_right _ hchange)).1)

-- The two phases make up the difference between the counts.
theorem cycle_number_apply_batch (hg : graph.WellFormed) (hb : batch.Fits graph)
    (h : Countable graph max_cycle_length)
    (h' : Countable (apply_batch graph batch) max_cycle_length) {k : Nat} (hk : 2 ≤ k) :
    cycle_number (apply_batch graph batch) k +
        phase_number graph (normalize batch).deletions k =
      cycle_number graph k + phase_number (apply_batch graph (normalize batch))
        (normalize batch).insertions k := by
  have hfin' := h'.finite k hk
  rw [← row_normalize hg hb] at hfin'
  rw [phase_number_eq, phase_number_eq, cycle_number, cycle_number, ← row_normalize hg hb]
  refine ncard_changed hk (h.finite k hk) hfin' fun a b => ?_
  rw [mem_arcs, mem_arcs]
  exact unchanged_edge_iff hg (normalize_fits hb) a b

-- The numbers in an update are bounded by those of the two graphs.
theorem update_numbers (hg : graph.WellFormed) (hb : batch.Fits graph)
    (h : Countable graph max_cycle_length)
    (h' : Countable (apply_batch graph batch) max_cycle_length) {k : Nat} (h₁ : 2 ≤ k)
    (h₂ : k ≤ max_cycle_length) :
    cycle_number (apply_batch graph batch) k + phase_number graph (normalize batch).deletions k =
        cycle_number graph k + phase_number (apply_batch graph (normalize batch))
          (normalize batch).insertions k ∧
      phase_number graph (normalize batch).deletions k ≤ cycle_number graph k ∧
      phase_number (apply_batch graph (normalize batch)) (normalize batch).insertions k ≤
        cycle_number (apply_batch graph batch) k ∧
      cycle_number graph k < 2 ^ 63 ∧ cycle_number (apply_batch graph batch) k < 2 ^ 63 := by
  have hfin' := h'.finite k h₁
  rw [← row_normalize hg hb] at hfin'
  have hinserted := phase_number_le hfin' (normalize batch).insertions
  rw [row_normalize hg hb] at hinserted
  exact ⟨cycle_number_apply_batch hg hb h h' h₁, phase_number_le (h.finite k h₁) _, hinserted,
    h.small k h₁ h₂, h'.small k h₁ h₂⟩

theorem update_static_histogram_eq (hg : graph.WellFormed) (hmax : 2 ≤ max_cycle_length)
    (hfew : max_cycle_length + 1 ≤ MAX_PLACES)
    (hb : batch.Fits graph) (h : Countable graph max_cycle_length)
    (h' : Countable (apply_batch graph batch) max_cycle_length) {histogram : CycleHistogram}
    (hcounted : Counted graph max_cycle_length histogram) {buffer : VisitedBuffer}
    (hclear : buffer.visited = Flags.none) :
    ∃ histogram' buffer', update_static_histogram graph histogram batch max_cycle_length buffer =
        .ok (histogram', buffer') ∧
      Counted (apply_batch graph batch) max_cycle_length histogram' ∧
      buffer'.visited = Flags.none := by
  have hnumbers := fun k (h₁ : 2 ≤ k) h₂ => update_numbers hg hb h h' h₁ h₂
  have hzero : ∀ k, (List.replicate (max_cycle_length + 1) (0 : Int)).getD k 0 = 0 := fun k => by
    simp
  -- the delta is minus the deleted cycles, then plus the inserted ones
  obtain ⟨delta₁, buffer₁, hrun₁, hsize₁, hclear₁, hdelta₁⟩ := accumulate_phase_eq hg
    (deletions_phase hb) hmax (places_eq hfew) (Or.inr rfl) (List.replicate (max_cycle_length + 1) 0) buffer
    List.length_replicate hclear fun k h₁ h₂ => by
      obtain ⟨heq, hle, hle', hlt, hlt'⟩ := hnumbers k h₁ h₂
      rw [hzero]
      unfold Signed
      omega
  obtain ⟨delta₂, buffer₂, hrun₂, hsize₂, hclear₂, hdelta₂⟩ := accumulate_phase_eq
    (apply_batch_well_formed hg (normalize_fits hb)) (insertions_phase hg hb) hmax (places_eq hfew)
    (Or.inl rfl)
    delta₁ buffer₁ hsize₁ hclear₁ fun k h₁ h₂ => by
      obtain ⟨heq, hle, hle', hlt, hlt'⟩ := hnumbers k h₁ h₂
      rw [hdelta₁ k h₁ h₂, hzero]
      unfold Signed
      omega
  obtain ⟨histogram', hrun, hcanonical, hcount⟩ := apply_histogram_delta_eq hcounted.canonical
    hmax hsize₂ (fun k => by
      rw [hcounted.count_eq]
      split_ifs with hk
      · exact h.small k hk.1 hk.2
      · omega) fun k h₁ h₂ => by
      obtain ⟨heq, hle, hle', hlt, hlt'⟩ := hnumbers k h₁ h₂
      rw [hdelta₂ k h₁ h₂, hdelta₁ k h₁ h₂, hzero, hcounted.count_eq, if_pos ⟨h₁, h₂⟩]
      refine ⟨fun hne => ?_, by omega, by omega⟩
      by_cases hnone : cycle_number graph k = 0
      · exact h'.narrow k h₁ (by omega)
      · exact h.narrow k h₁ hnone
  refine ⟨histogram', buffer₂, ?_, ⟨hcanonical, fun k => ?_⟩, hclear₂⟩
  · rw [update_static_histogram_of_phases (by omega) (make_delta_eq hfew) hrun₁ hrun₂, hrun]
    rfl
  · have := hcount k
    rw [hcounted.count_eq] at this
    split_ifs at this ⊢ with hk
    · obtain ⟨heq, hle, hle', hlt, hlt'⟩ := hnumbers k hk.1 hk.2
      rw [hdelta₂ k hk.1 hk.2, hdelta₁ k hk.1 hk.2, hzero] at this
      omega
    · omega

end Update

end CycleEnum.Dynamic
