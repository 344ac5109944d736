import CycleEnum.Dynamic.EdgeTheorems
import CycleEnum.Dynamic.HistogramDelta
import CycleEnum.Dynamic.Theorems
import CycleEnum.Dynamic.UpdateOpenmp

namespace CycleEnum.Dynamic

open CycleEnum.Enumeration CycleEnum.Sequential

def EdgeBatch.join (batch extra : EdgeBatch) : EdgeBatch where
  deletions := batch.deletions ++ extra.deletions
  insertions := batch.insertions ++ extra.insertions

-- Changes that leave the cycles after a batch as they are: deletions of edges that are missing,
-- insertions of edges that stay, and loops.
structure EdgeBatch.Redundant (extra : EdgeBatch) (graph : DirectedGraph) (batch : EdgeBatch) :
    Prop where
  vertices : ∀ change ∈ extra.deletions ++ extra.insertions,
    change.source < graph.vertex_count ∧ change.target < graph.vertex_count
  deletions : ∀ change ∈ extra.deletions,
    change.target ∉ graph.row change.source ∧ change ∉ batch.insertions
  insertions : ∀ change ∈ extra.insertions, change.source = change.target ∨
    change.target ∈ graph.row change.source ∧ change ∉ batch.deletions

-- No cycle uses a change that is no edge or a loop.
def Stray (graph : DirectedGraph) (change : EdgeChange) : Prop :=
  change.target ∉ graph.row change.source ∨ change.source = change.target

instance (graph : DirectedGraph) (change : EdgeChange) : Decidable (Stray graph change) :=
  inferInstanceAs (Decidable (_ ∨ _))

-- The ways from the target of a change back to its source that use no change before it.
noncomputable def way_number (graph : DirectedGraph) (changes : List EdgeChange)
    (round : EdgeChange × Nat) (k : Nat) : Nat :=
  (ways (fun a b => b ∈ graph.row a ∧ ⟨a, b⟩ ∉ changes.take round.2) round.1.target
    round.1.source k).ncard

noncomputable def stray_number (graph : DirectedGraph) (changes : List EdgeChange) (k : Nat) : Nat :=
  ((changes.zipIdx.filter fun round => Stray graph round.1).map fun round =>
    way_number graph changes round k).sum

-- The cycles after a batch through an edge that is inserted again, but through no new edge.
def again_cycles (graph : DirectedGraph) (batch extra : EdgeBatch) (k : Nat) : Set (Cycle Nat) :=
  {c ∈ cycles_of (fun a b => b ∈ (apply_batch graph batch).row a) k |
    (∃ change ∈ extra.insertions, Follows c change.source change.target) ∧
      ∀ change ∈ batch.insertions, ¬Follows c change.source change.target}

-- What the stray deletions take away comes back with the edges inserted again and the loops.
def Balanced (graph : DirectedGraph) (batch extra : EdgeBatch) (max_cycle_length : Nat) : Prop :=
  ∀ k, 2 ≤ k → k ≤ max_cycle_length →
    stray_number graph (normalize (batch.join extra)).deletions k =
      (again_cycles graph batch extra k).ncard +
        stray_number (apply_batch graph (normalize (batch.join extra)))
          (normalize (batch.join extra)).insertions k

structure Unchanged (graph : DirectedGraph) (histogram : CycleHistogram)
    (batch extra : EdgeBatch) (max_cycle_length : Nat) : Prop where
  cycles : ∀ k, 2 ≤ k →
    cycles_of (fun a b => b ∈ (apply_batch graph (batch.join extra)).row a) k =
      cycles_of (fun a b => b ∈ (apply_batch graph batch).row a) k
  histograms : ∀ buffer : VisitedBuffer, buffer.visited = Flags.none →
    ∃ histogram' buffer₁ buffer₂,
      update_static_histogram graph histogram batch max_cycle_length buffer =
        .ok (histogram', buffer₁) ∧
      update_static_histogram graph histogram (batch.join extra) max_cycle_length buffer =
        .ok (histogram', buffer₂)

-- The ways that a phase counts stay in the range of `long long`, their lengths in 32 bits.
def WaysFit (graph : DirectedGraph) (changes : List EdgeChange) (max_cycle_length : Nat) : Prop :=
  ∀ k, 2 ≤ k → k ≤ max_cycle_length →
    phase_number graph changes k + stray_number graph changes k < 2 ^ 63 ∧
      (phase_number graph changes k + stray_number graph changes k ≠ 0 → k < 2 ^ 32)

structure InRange (graph : DirectedGraph) (batch extra : EdgeBatch) (max_cycle_length : Nat) :
    Prop where
  before : CountsFit graph max_cycle_length
  after : CountsFit (apply_batch graph batch) max_cycle_length
  deletions : WaysFit graph (normalize (batch.join extra)).deletions max_cycle_length
  insertions : WaysFit (apply_batch graph (normalize (batch.join extra)))
    (normalize (batch.join extra)).insertions max_cycle_length

section Ways

variable {graph : DirectedGraph} {changes : List EdgeChange} {max_length k : Nat}
  {round : EdgeChange × Nat}

theorem way_number_eq_countP (hg : graph.Sorted) (hids : graph.vertex_count < 2 ^ 32)
    (hnarrow : ∀ change ∈ changes, change.target < 2 ^ 32) (round : EdgeChange × Nat)
    (hmax : 2 ≤ max_length) (hk : k ≤ max_length) :
    way_number graph changes round k =
      (owned_closings graph changes max_length round.1 round.2).countP (·.length = k) := by
  have hrel : (fun a b => b ∈ graph.row a ∧ (⟨a, b⟩ : EdgeChange) ∉ changes.take round.2) =
      fun a b => b ∈ succ_avoiding graph.row ((changes.take round.2).map arc_of) a := by
    funext a b
    rw [mem_succ_avoiding, mem_arcs]
  rw [way_number, hrel, owned_closings, if_neg (by omega), owned_successors_eq hg hids hnarrow]
  exact ncard_ways graph.vertex_count (fun a => (hg.row_nodup a).filter _)
    (fun a b hb => List.mem_range.mpr (hg.bounded a b (mem_succ_avoiding.mp hb).1)) (by simp)
    (by omega) hk

-- The cycles of two vertices or more use neither a missing edge nor a loop.
theorem owned_number_stray (hk : 2 ≤ k) (hstray : Stray graph round.1) :
    owned_number graph changes round k = 0 := by
  have hnone : owned_cycles (fun a b => b ∈ graph.row a) k ((changes.take round.2).map arc_of)
      (arc_of round.1) = ∅ := by
    refine Set.eq_empty_of_forall_notMem fun c hc => ?_
    obtain ⟨⟨hn, hlen, hchain⟩, hfollows, -⟩ := hc
    rcases hstray with hmissing | hloop
    · exact hmissing ((chain_iff_follows _ c (by omega)).mp hchain _ _ hfollows)
    · exact hfollows.ne hn hloop
  rw [owned_number, hnone, Set.ncard_empty]

-- A change has the cycles that it owns as its ways, or is a stray.
theorem way_number_split (hg : graph.Sorted) (hids : graph.vertex_count < 2 ^ 32) (hn : changes.Nodup)
    (hnarrow : ∀ change ∈ changes, change.target < 2 ^ 32) (hr : round ∈ changes.zipIdx)
    (hk : 2 ≤ k) :
    way_number graph changes round k = owned_number graph changes round k +
      if Stray graph round.1 then way_number graph changes round k else 0 := by
  split_ifs with hstray
  · rw [owned_number_stray hk hstray, Nat.zero_add]
  · rw [Stray, not_or, not_not] at hstray
    rw [way_number_eq_countP hg hids hnarrow round hk (Nat.le_refl k),
      owned_number_eq hg hids hn hnarrow hr hstray.1 hstray.2 (Nat.le_refl k), owned_closings,
      if_neg (by omega), Nat.add_zero]

theorem sum_split {α : Type} {all part : α → Nat} {own : α → Prop} [DecidablePred own]
    {items : List α} (h : ∀ x ∈ items, all x = part x + if own x then all x else 0) :
    (items.map all).sum = (items.map part).sum + ((items.filter (own ·)).map all).sum := by
  induction items with
  | nil => rfl
  | cons x items ih =>
      have hx := h x List.mem_cons_self
      have hrest := ih fun y hy => h y (List.mem_cons_of_mem x hy)
      rw [List.map_cons, List.sum_cons, List.map_cons, List.sum_cons, hrest]
      by_cases hown : own x
      · rw [if_pos hown] at hx
        rw [List.filter_cons_of_pos (by simpa using hown), List.map_cons, List.sum_cons]
        omega
      · rw [if_neg hown] at hx
        rw [List.filter_cons_of_neg (by simpa using hown)]
        omega

-- All ways that a phase counts.
theorem sum_way_numbers (hg : graph.Sorted) (hids : graph.vertex_count < 2 ^ 32) (hn : changes.Nodup)
    (hnarrow : ∀ change ∈ changes, change.target < 2 ^ 32) (hk : 2 ≤ k) :
    (changes.zipIdx.map fun round => way_number graph changes round k).sum =
      phase_number graph changes k + stray_number graph changes k :=
  sum_split fun _ hr => way_number_split hg hids hn hnarrow hr hk

-- One call counts the ways of its change.
theorem count_ways (hg : graph.Sorted) (hids : graph.vertex_count < 2 ^ 32)
    (hvertices : ∀ change ∈ changes,
      change.source < graph.vertex_count ∧ change.target < graph.vertex_count)
    (hnarrow : ∀ change ∈ changes, change.target < 2 ^ 32) (hmax : 2 ≤ max_length)
    (hr : round ∈ changes.zipIdx)
    (hsmall : ∀ k, 2 ≤ k → k ≤ max_length → way_number graph changes round k < 2 ^ 63)
    {buffer : VisitedBuffer} (hclear : buffer.visited = Flags.none) :
    ∃ counts buffer', count_cycles_through_edge graph round.1.source round.1.target round.2
        (ChangedEdgeIndex.of_changes changes) max_length (List.replicate (max_length + 1) 0) buffer =
          .ok (counts, buffer') ∧
      buffer'.visited = Flags.none ∧ counts.length = max_length + 1 ∧
      ∀ k, 2 ≤ k → k ≤ max_length → counts.getD k 0 = way_number graph changes round k := by
  obtain ⟨hsource, htarget⟩ := hvertices round.1 (List.fst_mem_of_mem_zipIdx hr)
  obtain ⟨buffer', hone, hclear'⟩ := count_cycles_through_edge_ok changes round.1 round.2
    max_length hg.read_bounded hsource htarget (List.replicate (max_length + 1) 0) hclear
  refine ⟨_, buffer', hone, hclear', by simp, fun k h₁ h₂ => ?_⟩
  have hzero : (List.replicate (max_length + 1) 0).getD k 0 = 0 := by
    rw [List.getD_replicate]
    omega
  have hlt := hsmall k h₁ h₂
  rw [way_number_eq_countP hg hids hnarrow round hmax h₂] at hlt ⊢
  rw [count_all_getD _ _ (by rw [List.length_replicate]; omega) (by rw [hzero]; omega), hzero,
    Nat.zero_add]

theorem accumulate_ways (hg : graph.Sorted) (hids : graph.vertex_count < 2 ^ 32)
    (hplaces : places max_length = max_length + 1) (hn : changes.Nodup)
    (hvertices : ∀ change ∈ changes,
      change.source < graph.vertex_count ∧ change.target < graph.vertex_count)
    (hnarrow : ∀ change ∈ changes, change.target < 2 ^ 32) (hmax : 2 ≤ max_length) {sign : Int}
    (hsign : sign = 1 ∨ sign = -1) (delta : List Int) (buffer : VisitedBuffer)
    (hsize : delta.length = max_length + 1) (hclear : buffer.visited = Flags.none)
    (hfits : ∀ k, 2 ≤ k → k ≤ max_length →
      phase_number graph changes k + stray_number graph changes k < 2 ^ 63 ∧
      Signed (delta.getD k 0) ∧ Signed (delta.getD k 0 +
        sign * ((phase_number graph changes k + stray_number graph changes k : Nat) : Int))) :
    ∃ delta' buffer', accumulate_phase graph changes max_length sign delta buffer =
        .ok (delta', buffer') ∧
      delta'.length = max_length + 1 ∧ buffer'.visited = Flags.none ∧
      ∀ k, 2 ≤ k → k ≤ max_length → delta'.getD k 0 = delta.getD k 0 +
        sign * ((phase_number graph changes k + stray_number graph changes k : Nat) : Int) := by
  have hsum := fun k (hk : 2 ≤ k) => sum_way_numbers hg hids hn hnarrow hk
  obtain ⟨delta', buffer', hrun, hsize', hclear', hdelta⟩ := @accumulate_rounds graph changes
    max_length (way_number graph changes) hmax sign hsign changes.zipIdx
    (fun _ hr hsmall _ hclear => count_ways hg hids hvertices hnarrow hmax hr hsmall hclear) delta buffer
    hsize hclear fun k h₁ h₂ => by
      rw [hsum k h₁]
      exact hfits k h₁ h₂
  refine ⟨delta', buffer', (accumulate_phase_places hplaces _ _ _).trans hrun, hsize', hclear',
    fun k h₁ h₂ => ?_⟩
  rw [hdelta k h₁ h₂, hsum k h₁]

end Ways

section Join

variable {graph : DirectedGraph} {batch extra : EdgeBatch} {k : Nat}

theorem apply_batch_sorted (hg : graph.WellFormed)
    (hb : ∀ change ∈ batch.insertions, change.target < graph.vertex_count) :
    (apply_batch graph batch).Sorted := by
  have hbounded := apply_batch_bounded batch hg.bounded hb
  exact ⟨apply_batch_length graph batch, apply_batch_start graph batch,
    apply_batch_ascending hg batch, hbounded, fun v next hn => (hbounded v next hn).trans hg.ids⟩

theorem join_vertices (hb : batch.Fits graph) (hx : extra.Redundant graph batch) :
    ∀ change ∈ (batch.join extra).deletions ++ (batch.join extra).insertions,
      change.source < graph.vertex_count ∧ change.target < graph.vertex_count := by
  intro change hchange
  rw [EdgeBatch.join, List.mem_append, List.mem_append, List.mem_append] at hchange
  rcases hchange with (h | h) | h | h
  · exact hb.vertices change (List.mem_append_left _ h)
  · exact hx.vertices change (List.mem_append_left _ h)
  · exact hb.vertices change (List.mem_append_right _ h)
  · exact hx.vertices change (List.mem_append_right _ h)

-- The extra changes leave nothing but loops.
theorem mem_join_row_iff (hg : graph.WellFormed) (hb : batch.Fits graph)
    (hx : extra.Redundant graph batch) {a b : Nat} :
    b ∈ (apply_batch graph (normalize (batch.join extra))).row a ↔
      b ∈ (apply_batch graph batch).row a ∨ a = b ∧ ⟨a, b⟩ ∈ extra.insertions := by
  have hvertices := normalized_vertices (join_vertices hb hx)
  rw [mem_apply_batch_iff hg.offsets_length fun change hchange =>
    (hvertices change (List.mem_append_right _ hchange)).1, mem_apply_batch hg hb]
  simp only [normalize, EdgeBatch.join, mem_sort_and_dedup, List.mem_append, not_or]
  constructor
  · intro h
    rcases h with ⟨hrow, hdel, -⟩ | hins | hins
    · exact Or.inl (Or.inl ⟨hrow, hdel⟩)
    · exact Or.inl (Or.inr hins)
    · rcases hx.insertions _ hins with hloop | hkept
      · exact Or.inr ⟨hloop, hins⟩
      · exact Or.inl (Or.inl hkept)
  · intro h
    rcases h with (⟨hrow, hdel⟩ | hins) | ⟨-, hins⟩
    · exact Or.inl ⟨hrow, hdel, fun hm => (hx.deletions _ hm).1 hrow⟩
    · exact Or.inr (Or.inl hins)
    · exact Or.inr (Or.inr hins)

theorem join_cycles_eq (hg : graph.WellFormed) (hb : batch.Fits graph)
    (hx : extra.Redundant graph batch) (hk : 2 ≤ k) :
    cycles_of (fun a b => b ∈ (apply_batch graph (normalize (batch.join extra))).row a) k =
      cycles_of (fun a b => b ∈ (apply_batch graph batch).row a) k := by
  refine cycles_of_congr hk fun a b hne => ?_
  rw [mem_join_row_iff hg hb hx, or_iff_left fun h => hne h.1]

-- The changes of a list that a cycle can use are all that counts.
theorem phase_number_of_changes {changes changes' : List EdgeChange} (hg : graph.Sorted)
    (hk : 2 ≤ k)
    (h : ∀ c ∈ cycles_of (fun a b => b ∈ graph.row a) k,
      (∃ change ∈ changes, Follows c change.source change.target) ↔
        ∃ change ∈ changes', Follows c change.source change.target) :
    phase_number graph changes k = (changed_cycles graph changes' k).ncard := by
  have hsame : changed_cycles graph changes k = changed_cycles graph changes' k := by
    ext c
    exact and_congr_right fun hc => h c hc
  rw [← ncard_changed_cycles hg changes hk, hsame]

theorem deleted_number (hg : graph.Sorted) (hk : 2 ≤ k) :
    phase_number graph (normalize batch).deletions k =
      (changed_cycles graph batch.deletions k).ncard :=
  phase_number_of_changes hg hk fun c _ => by simp only [normalize, mem_sort_and_dedup]

theorem deleted_number_join (hg : graph.WellFormed) (hx : extra.Redundant graph batch)
    (hk : 2 ≤ k) :
    phase_number graph (normalize (batch.join extra)).deletions k =
      (changed_cycles graph batch.deletions k).ncard := by
  refine phase_number_of_changes hg.sorted hk fun c hc => ?_
  obtain ⟨-, hlen, hchain⟩ := hc
  simp only [normalize, EdgeBatch.join, mem_sort_and_dedup, List.mem_append]
  constructor
  · intro h
    obtain ⟨change, hold | hmissing, hf⟩ := h
    · exact ⟨change, hold, hf⟩
    · have hrow := (chain_iff_follows _ c (by omega)).mp hchain _ _ hf
      exact absurd hrow (hx.deletions change hmissing).1
  · intro h
    obtain ⟨change, hold, hf⟩ := h
    exact ⟨change, Or.inl hold, hf⟩

theorem inserted_number (hg : graph.WellFormed) (hb : batch.Fits graph) (hk : 2 ≤ k) :
    phase_number (apply_batch graph (normalize batch)) (normalize batch).insertions k =
      (changed_cycles (apply_batch graph batch) batch.insertions k).ncard := by
  have hsorted := (apply_batch_well_formed hg (normalize_fits hb)).sorted
  rw [phase_number_of_changes hsorted hk fun c _ => (by
    simp only [normalize, mem_sort_and_dedup] : _ ↔
      ∃ change ∈ batch.insertions, Follows c change.source change.target),
    changed_cycles, changed_cycles, row_normalize hg hb]

-- The new cycles, and those through an edge that is inserted again.
theorem inserted_number_join (hg : graph.WellFormed) (hb : batch.Fits graph)
    (hx : extra.Redundant graph batch) (hk : 2 ≤ k) :
    phase_number (apply_batch graph (normalize (batch.join extra)))
        (normalize (batch.join extra)).insertions k =
      (changed_cycles (apply_batch graph batch) batch.insertions k).ncard +
        (again_cycles graph batch extra k).ncard := by
  have hvertices := normalized_vertices (join_vertices hb hx)
  have hsorted : (apply_batch graph (normalize (batch.join extra))).Sorted :=
    apply_batch_sorted hg fun change hchange =>
      (hvertices change (List.mem_append_right _ hchange)).2
  have hfin := cycles_finite (apply_batch_well_formed hg hb).sorted hk
  have hparts : changed_cycles (apply_batch graph (normalize (batch.join extra)))
      (normalize (batch.join extra)).insertions k =
      changed_cycles (apply_batch graph batch) batch.insertions k ∪
        again_cycles graph batch extra k := by
    have hmem : ∀ change, change ∈ (normalize (batch.join extra)).insertions ↔
        change ∈ batch.insertions ∨ change ∈ extra.insertions := fun change => by
      rw [normalize, mem_sort_and_dedup, EdgeBatch.join, List.mem_append]
    ext c
    rw [changed_cycles, join_cycles_eq hg hb hx hk]
    simp only [changed_cycles, again_cycles, Set.mem_union, Set.mem_ofPred_eq, hmem]
    constructor
    · intro h
      obtain ⟨hc, change, hchange, hf⟩ := h
      by_cases hnew : ∃ change ∈ batch.insertions, Follows c change.source change.target
      · exact Or.inl ⟨hc, hnew⟩
      · have hextra : change ∈ extra.insertions :=
          hchange.resolve_left fun hold => hnew ⟨change, hold, hf⟩
        exact Or.inr ⟨hc, ⟨change, hextra, hf⟩, fun other ho hother => hnew ⟨other, ho, hother⟩⟩
    · intro h
      rcases h with ⟨hc, change, hchange, hf⟩ | ⟨hc, ⟨change, hchange, hf⟩, -⟩
      · exact ⟨hc, change, Or.inl hchange, hf⟩
      · exact ⟨hc, change, Or.inr hchange, hf⟩
  rw [← ncard_changed_cycles hsorted _ hk, hparts]
  refine Set.ncard_union_eq ?_ (hfin.subset fun _ h => h.1) (hfin.subset fun _ h => h.1)
  refine Set.disjoint_left.mpr fun c hnew hagain => ?_
  obtain ⟨change, hchange, hf⟩ := hnew.2
  exact hagain.2.2 change hchange hf

-- The numbers of cycles before and after, and what the two phases count of them.
theorem join_numbers (hg : graph.WellFormed) (hb : batch.Fits graph)
    (hx : extra.Redundant graph batch) {max_cycle_length : Nat}
    (h : Countable graph max_cycle_length)
    (h' : Countable (apply_batch graph batch) max_cycle_length) (hk : 2 ≤ k) :
    cycle_number graph k + phase_number (apply_batch graph (normalize (batch.join extra)))
        (normalize (batch.join extra)).insertions k =
      cycle_number (apply_batch graph batch) k +
        phase_number graph (normalize (batch.join extra)).deletions k +
        (again_cycles graph batch extra k).ncard := by
  have hbatch := cycle_number_apply_batch hg hb h h' hk
  rw [deleted_number hg.sorted hk, inserted_number hg hb hk] at hbatch
  rw [inserted_number_join hg hb hx hk, deleted_number_join hg hx hk]
  omega

end Join

section Update

variable {graph : DirectedGraph} {batch extra : EdgeBatch} {max_cycle_length : Nat}
  {histogram : CycleHistogram}

-- The delta of any batch whose ways are in range.
theorem update_ways (hg : graph.WellFormed)
    (hvertices : ∀ change ∈ batch.deletions ++ batch.insertions,
      change.source < graph.vertex_count ∧ change.target < graph.vertex_count)
    (hmax : 2 ≤ max_cycle_length) (hfew : max_cycle_length + 1 ≤ MAX_PLACES)
    (hdeletions : WaysFit graph (normalize batch).deletions max_cycle_length)
    (hinsertions : WaysFit (apply_batch graph (normalize batch)) (normalize batch).insertions
      max_cycle_length) {buffer : VisitedBuffer} (hclear : buffer.visited = Flags.none) :
    ∃ delta buffer', delta.length = max_cycle_length + 1 ∧
      update_static_histogram graph histogram batch max_cycle_length buffer =
        (apply_histogram_delta histogram delta max_cycle_length).map
          (fun histogram => (histogram, buffer')) ∧
      ∀ k, 2 ≤ k → k ≤ max_cycle_length →
        (delta.getD k 0 ≠ 0 → k < 2 ^ 32) ∧
        delta.getD k 0 = ((phase_number (apply_batch graph (normalize batch))
            (normalize batch).insertions k + stray_number (apply_batch graph (normalize batch))
            (normalize batch).insertions k : Nat) : Int) -
          ((phase_number graph (normalize batch).deletions k +
            stray_number graph (normalize batch).deletions k : Nat) : Int) := by
  have hnormal := normalized_vertices hvertices
  have hdeleted : ∀ change ∈ (normalize batch).deletions,
      change.source < graph.vertex_count ∧ change.target < graph.vertex_count :=
    fun change hchange => hnormal change (List.mem_append_left _ hchange)
  have hinserted : ∀ change ∈ (normalize batch).insertions,
      change.source < graph.vertex_count ∧ change.target < graph.vertex_count :=
    fun change hchange => hnormal change (List.mem_append_right _ hchange)
  have hdistinct : (normalize batch).deletions.Nodup ∧ (normalize batch).insertions.Nodup :=
    ⟨sort_and_dedup_nodup batch.deletions, sort_and_dedup_nodup batch.insertions⟩
  have hzero : ∀ k, (List.replicate (max_cycle_length + 1) (0 : Int)).getD k 0 = 0 := fun k => by
    simp
  obtain ⟨delta₁, buffer₁, hrun₁, hsize₁, hclear₁, hdelta₁⟩ := accumulate_ways hg.sorted hg.ids
    (places_eq hfew) hdistinct.1 hdeleted
    (fun change hchange => (hdeleted change hchange).2.trans hg.ids) hmax (Or.inr rfl)
    (List.replicate (max_cycle_length + 1) 0) buffer List.length_replicate hclear
    fun k h₁ h₂ => by
      have := (hdeletions k h₁ h₂).1
      rw [hzero]
      unfold Signed
      omega
  obtain ⟨delta₂, buffer₂, hrun₂, hsize₂, -, hdelta₂⟩ := accumulate_ways
    (apply_batch_sorted hg fun change hchange => (hinserted change hchange).2) hg.ids
    (places_eq hfew) hdistinct.2 hinserted
    (fun change hchange => (hinserted change hchange).2.trans hg.ids) hmax (Or.inl rfl)
    delta₁ buffer₁ hsize₁ hclear₁ fun k h₁ h₂ => by
      have := (hdeletions k h₁ h₂).1
      have := (hinsertions k h₁ h₂).1
      rw [hdelta₁ k h₁ h₂, hzero]
      unfold Signed
      omega
  refine ⟨delta₂, buffer₂, hsize₂,
    update_static_histogram_of_phases (by omega) (make_delta_eq hfew) hrun₁ hrun₂, fun k h₁ h₂ => ?_⟩
  have hvalue := hdelta₂ k h₁ h₂
  rw [hdelta₁ k h₁ h₂, hzero] at hvalue
  refine ⟨fun hne => ?_, by omega⟩
  by_cases hnone : phase_number graph (normalize batch).deletions k +
      stray_number graph (normalize batch).deletions k = 0
  · exact (hinsertions k h₁ h₂).2 (by omega)
  · exact (hdeletions k h₁ h₂).2 hnone

-- A histogram that comes out of a delta in range has the sums as its counts.
theorem count_of_applied {delta : List Int} {histogram' : CycleHistogram}
    (hnarrow : ∀ k, 2 ≤ k → k ≤ max_cycle_length → delta.getD k 0 ≠ 0 → k < 2 ^ 32)
    (hsmall : ∀ k, histogram.count k < 2 ^ 63)
    (h : apply_histogram_delta histogram delta max_cycle_length = .ok histogram') {k : Nat}
    (h₁ : 2 ≤ k) (h₂ : k ≤ max_cycle_length) :
    (histogram'.count k : Int) = histogram.count k + delta.getD k 0 := by
  have hwide : ∀ length, 2 ^ 32 ≤ length →
      applied_delta delta max_cycle_length length = 0 := by
    intro length hlength
    unfold applied_delta
    split
    · next hin =>
        by_contra hne
        exact Nat.not_lt_of_le hlength (hnarrow length hin.1 hin.2 hne)
    · rfl
  rcases apply_histogram_delta_cases histogram delta max_cycle_length with
    ⟨-, hrun⟩ | ⟨-, ⟨-, hrun⟩ | ⟨-, -, hrun⟩ | ⟨-, -, other, hrun, -, hcount⟩⟩
  · cases hrun.symm.trans h
  · cases hrun.symm.trans h
  · cases hrun.symm.trans h
  · obtain rfl : other = histogram' := Except.ok.inj (hrun.symm.trans h)
    rw [hcount, bin_total_narrow hwide, to_signed_eq (hsmall k), applied_delta, if_pos ⟨h₁, h₂⟩]

theorem Counted.small (hcounted : Counted graph max_cycle_length histogram)
    (h : Countable graph max_cycle_length) (k : Nat) : histogram.count k < 2 ^ 63 := by
  rw [hcounted.count_eq]
  split_ifs with hk
  · exact h.small k hk.1 hk.2
  · omega

-- An update that ends in the histogram of the graph after the batch has balanced its strays.
theorem balanced_of_counted (hg : graph.WellFormed) (hmax : 2 ≤ max_cycle_length)
    (hfew : max_cycle_length + 1 ≤ MAX_PLACES)
    (hb : batch.Fits graph) (hx : extra.Redundant graph batch)
    (hrange : InRange graph batch extra max_cycle_length)
    (hcounted : Counted graph max_cycle_length histogram) {histogram' : CycleHistogram}
    (hupdated : Counted (apply_batch graph batch) max_cycle_length histogram')
    {buffer buffer' : VisitedBuffer} (hclear : buffer.visited = Flags.none)
    (hrun : update_static_histogram graph histogram (batch.join extra) max_cycle_length buffer =
      .ok (histogram', buffer')) : Balanced graph batch extra max_cycle_length := by
  have h := hrange.before.countable hg
  have h' := hrange.after.countable (apply_batch_well_formed hg hb)
  obtain ⟨delta, buffer₁, -, hways, hdelta⟩ := @update_ways _ _ _ histogram hg
    (join_vertices hb hx) hmax hfew hrange.deletions hrange.insertions buffer hclear
  have happlied : apply_histogram_delta histogram delta max_cycle_length = .ok histogram' := by
    rw [hways] at hrun
    cases hresult : apply_histogram_delta histogram delta max_cycle_length with
    | error error =>
        rw [hresult] at hrun
        cases hrun
    | ok result =>
        rw [hresult] at hrun
        rw [(Prod.mk.inj (Except.ok.inj hrun)).1]
  intro k h₁ h₂
  have hcount := count_of_applied (fun k h₁ h₂ => (hdelta k h₁ h₂).1) (hcounted.small h) happlied
    h₁ h₂
  have hnumbers := join_numbers hg hb hx h h' h₁
  rw [hupdated.count_eq, hcounted.count_eq, if_pos ⟨h₁, h₂⟩, if_pos ⟨h₁, h₂⟩,
    (hdelta k h₁ h₂).2] at hcount
  omega

-- Strays that balance leave the delta of the batch.
theorem counted_of_balanced (hg : graph.WellFormed) (hmax : 2 ≤ max_cycle_length)
    (hfew : max_cycle_length + 1 ≤ MAX_PLACES)
    (hb : batch.Fits graph) (hx : extra.Redundant graph batch)
    (hrange : InRange graph batch extra max_cycle_length)
    (hcounted : Counted graph max_cycle_length histogram)
    (hbalanced : Balanced graph batch extra max_cycle_length) {buffer : VisitedBuffer}
    (hclear : buffer.visited = Flags.none) :
    ∃ histogram' buffer', update_static_histogram graph histogram (batch.join extra)
        max_cycle_length buffer = .ok (histogram', buffer') ∧
      Counted (apply_batch graph batch) max_cycle_length histogram' := by
  have h := hrange.before.countable hg
  have h' := hrange.after.countable (apply_batch_well_formed hg hb)
  obtain ⟨delta, buffer', hsize, hrun, hdelta⟩ := @update_ways _ _ _ histogram hg
    (join_vertices hb hx) hmax hfew hrange.deletions hrange.insertions buffer hclear
  have hsum : ∀ k, 2 ≤ k → k ≤ max_cycle_length → (histogram.count k : Int) + delta.getD k 0 =
      cycle_number (apply_batch graph batch) k := by
    intro k h₁ h₂
    have hnumbers := join_numbers hg hb hx h h' h₁
    have := hbalanced k h₁ h₂
    rw [hcounted.count_eq, if_pos ⟨h₁, h₂⟩, (hdelta k h₁ h₂).2]
    omega
  obtain ⟨histogram', happlied, hcanonical, hcount⟩ := apply_histogram_delta_eq hcounted.canonical
    hmax hsize (hcounted.small h) fun k h₁ h₂ => by
      have := h'.small k h₁ h₂
      rw [hsum k h₁ h₂]
      exact ⟨(hdelta k h₁ h₂).1, by omega, by omega⟩
  refine ⟨histogram', buffer', ?_, hcanonical, fun k => ?_⟩
  · rw [hrun, happlied]
    rfl
  · have hk := hcount k
    split_ifs at hk ⊢ with hin
    · rw [hsum k hin.1 hin.2] at hk
      omega
    · rw [hcounted.count_eq, if_neg hin] at hk
      omega

-- An update that returns has made its vector.
theorem few_of_update {result : CycleHistogram × VisitedBuffer} {buffer : VisitedBuffer}
    (hword : max_cycle_length + 1 < 2 ^ 64) (hmax : 2 ≤ max_cycle_length)
    (h : update_static_histogram graph histogram batch max_cycle_length buffer = .ok result) :
    max_cycle_length + 1 ≤ MAX_PLACES := by
  rw [update_static_histogram, if_neg (by omega)] at h
  obtain ⟨delta, hdelta, -⟩ := bind_ok h
  unfold make_delta make_vector places at hdelta
  rw [Nat.mod_eq_of_lt hword] at hdelta
  split_ifs at hdelta with hmany
  exact Nat.le_of_not_lt hmany

-- The extra changes make no difference to the update where the numbers stay in range and
-- the ways of the extra changes balance, and in range only there.
theorem redundant_changes_kept (hg : graph.WellFormed) (hmax : 2 ≤ max_cycle_length)
    (hprior : recount graph max_cycle_length = .ok histogram) (hb : batch.Fits graph)
    (hx : extra.Redundant graph batch) :
    (max_cycle_length + 1 ≤ MAX_PLACES ∧ InRange graph batch extra max_cycle_length ∧
        Balanced graph batch extra max_cycle_length →
      Unchanged graph histogram batch extra max_cycle_length) ∧
    (InRange graph batch extra max_cycle_length → max_cycle_length + 1 < 2 ^ 64 →
      Unchanged graph histogram batch extra max_cycle_length →
        max_cycle_length + 1 ≤ MAX_PLACES ∧ Balanced graph batch extra max_cycle_length) := by
  have hcountable := fun hrange : InRange graph batch extra max_cycle_length =>
    And.intro (hrange.before.countable hg) (hrange.after.countable (apply_batch_well_formed hg hb))
  have hstart : InRange graph batch extra max_cycle_length →
      Counted graph max_cycle_length histogram := fun hrange => by
    obtain ⟨prior, hrecount, hcounted⟩ := recount_eq hg hmax hrange.before
    obtain rfl : prior = histogram := Except.ok.inj (hrecount.symm.trans hprior)
    exact hcounted
  refine ⟨fun ⟨hfew, hrange, hbalanced⟩ => ?_, fun hrange hword hsame => ?_⟩
  · obtain ⟨h, h'⟩ := hcountable hrange
    have hcounted := hstart hrange
    refine ⟨fun k hk => ?_, fun buffer hclear => ?_⟩
    · rw [← join_cycles_eq hg hb hx hk]
      refine cycles_of_congr hk fun a b _ => ?_
      rw [mem_row_normalize_iff hg.offsets_length fun change hchange =>
        (join_vertices hb hx change (List.mem_append_right _ hchange)).1]
    · obtain ⟨histogram', buffer₁, hrun₁, hupdated, -⟩ :=
        update_static_histogram_eq hg hmax hfew hb h h' hcounted hclear
      obtain ⟨other, buffer₂, hrun₂, hother⟩ :=
        counted_of_balanced hg hmax hfew hb hx hrange hcounted hbalanced hclear
      obtain rfl := hother.unique hupdated
      exact ⟨other, buffer₁, buffer₂, hrun₁, hrun₂⟩
  · obtain ⟨h, h'⟩ := hcountable hrange
    have hcounted := hstart hrange
    obtain ⟨histogram', buffer₁, buffer₂, hrun₁, hrun₂⟩ := hsame.histograms ⟨0, Flags.none⟩ rfl
    have hfew := few_of_update hword hmax hrun₁
    obtain ⟨other, buffer', hrun, hupdated, -⟩ := @update_static_histogram_eq _ _ _ hg hmax hfew hb h h'
      _ hcounted ⟨0, Flags.none⟩ rfl
    obtain ⟨rfl, -⟩ := Prod.mk.inj (Except.ok.inj (hrun.symm.trans hrun₁))
    exact ⟨hfew, balanced_of_counted hg hmax hfew hb hx hrange hcounted hupdated rfl hrun₂⟩

end Update

section Sample

theorem DirectedGraph.well_formed_of_rows {graph : DirectedGraph}
    (hlength : graph.offsets.length = graph.vertex_count + 1)
    (hstart : graph.offsets.getD 0 0 = 0)
    (hrows : ∀ v < graph.vertex_count, (graph.row v).Pairwise (· < ·) ∧
      (∀ next ∈ graph.row v, next < graph.vertex_count) ∧ v ∉ graph.row v)
    (hids : graph.vertex_count < 2 ^ 32) : graph.WellFormed := by
  have hsorted := sorted_of_rows hlength hstart (fun v hv => ⟨(hrows v hv).1, (hrows v hv).2.1⟩)
    (Nat.le_of_lt hids)
  refine ⟨hlength, hstart, hsorted.ascending, fun v hloop => ?_, hsorted.bounded, hids⟩
  by_cases hv : v < graph.vertex_count
  · exact (hrows v hv).2.2 hloop
  · rw [row_eq_nil hlength (Nat.le_of_not_lt hv)] at hloop
    cases hloop

-- The ways of a small graph can be counted.
theorem ways_fit_of_counts {graph : DirectedGraph} {changes : List EdgeChange}
    {max_cycle_length : Nat} (hg : graph.Sorted) (hids : graph.vertex_count < 2 ^ 32)
    (hn : changes.Nodup) (hnarrow : ∀ change ∈ changes, change.target < 2 ^ 32)
    (hmax : 2 ≤ max_cycle_length)
    (hlength : max_cycle_length < 2 ^ 32)
    (h : ∀ k ≤ max_cycle_length, (changes.zipIdx.map fun round =>
      (owned_closings graph changes max_cycle_length round.1 round.2).countP
        (·.length = k)).sum < 2 ^ 63) : WaysFit graph changes max_cycle_length := by
  intro k h₁ h₂
  have hways : (changes.zipIdx.map fun round => way_number graph changes round k) =
      changes.zipIdx.map fun round =>
        (owned_closings graph changes max_cycle_length round.1 round.2).countP (·.length = k) :=
    List.map_congr_left fun round _ => way_number_eq_countP hg hids hnarrow round hmax h₂
  rw [← sum_way_numbers hg hids hn hnarrow h₁, hways]
  exact ⟨h k h₂, fun _ => lt_of_le_of_lt h₂ hlength⟩

theorem ring_graph_well_formed : ring_graph.WellFormed :=
  DirectedGraph.well_formed_of_rows rfl rfl (by decide) (by decide)

-- The way from 2 back to 0 for the missing edge is made up for by the loop.
theorem redundant_changes_kept_sample :
    Unchanged ring_graph ((∅ : CycleHistogram).increment 3 1 |>.toOption.getD ∅)
        ⟨[⟨0, 1⟩], [⟨1, 0⟩]⟩ ⟨[⟨0, 2⟩], [⟨1, 2⟩, ⟨0, 0⟩]⟩ 3 ↔
      Balanced ring_graph ⟨[⟨0, 1⟩], [⟨1, 0⟩]⟩ ⟨[⟨0, 2⟩], [⟨1, 2⟩, ⟨0, 0⟩]⟩ 3 := by
  have hb : EdgeBatch.Fits ⟨[⟨0, 1⟩], [⟨1, 0⟩]⟩ ring_graph :=
    ⟨by decide, by decide, by decide, by decide⟩
  have hx : EdgeBatch.Redundant ⟨[⟨0, 2⟩], [⟨1, 2⟩, ⟨0, 0⟩]⟩ ring_graph ⟨[⟨0, 1⟩], [⟨1, 0⟩]⟩ :=
    ⟨by decide, by decide, by decide⟩
  have hnew : (apply_batch ring_graph (normalize (EdgeBatch.join ⟨[⟨0, 1⟩], [⟨1, 0⟩]⟩
      ⟨[⟨0, 2⟩], [⟨1, 2⟩, ⟨0, 0⟩]⟩))).Sorted :=
    DirectedGraph.sorted_of_rows (by decide) (by decide) (by decide) (by decide)
  have hrange : InRange ring_graph ⟨[⟨0, 1⟩], [⟨1, 0⟩]⟩ ⟨[⟨0, 2⟩], [⟨1, 2⟩, ⟨0, 0⟩]⟩ 3 := by
    refine ⟨counts_fit_of_recount ring_graph_well_formed (by decide) (by decide +kernel),
      counts_fit_of_recount (apply_batch_well_formed ring_graph_well_formed hb) (by decide)
        (by decide +kernel), ?_, ?_⟩
    · exact ways_fit_of_counts ring_graph_well_formed.sorted (by decide) (by decide) (by decide)
        (by decide) (by decide) (by decide +kernel)
    · exact ways_fit_of_counts hnew (by decide) (by decide) (by decide) (by decide) (by decide)
        (by decide +kernel)
  obtain ⟨henough, hneeded⟩ :=
    @redundant_changes_kept ring_graph _ _ 3 ((∅ : CycleHistogram).increment 3 1 |>.toOption.getD ∅)
      ring_graph_well_formed (by decide) (by decide +kernel) hb hx
  exact ⟨fun hsame => (hneeded hrange (by decide) hsame).2,
    fun hbalanced => henough ⟨by decide, hrange, hbalanced⟩⟩

-- The arc from 1 to 0.
def arc_graph : DirectedGraph := ⟨2, [0, 0, 1], [0]⟩

-- Deleting the arc from 0 to 1, which is missing, takes the way from 1 to 0 for a cycle.
theorem redundant_changes_lost :
    arc_graph.WellFormed ∧ recount arc_graph 2 = .ok ∅ ∧ EdgeBatch.Fits ⟨[], []⟩ arc_graph ∧
      EdgeBatch.Redundant ⟨[⟨0, 1⟩], []⟩ arc_graph ⟨[], []⟩ ∧
      (update_static_histogram arc_graph ∅ (EdgeBatch.join ⟨[], []⟩ ⟨[⟨0, 1⟩], []⟩) 2
        ⟨0, Flags.none⟩).map (·.1) =
          .error (.logic_error "dynamic update produced a negative cycle count") ∧
      ¬Unchanged arc_graph ∅ ⟨[], []⟩ ⟨[⟨0, 1⟩], []⟩ 2 := by
  have hrun : (update_static_histogram arc_graph ∅ (EdgeBatch.join ⟨[], []⟩ ⟨[⟨0, 1⟩], []⟩) 2
      ⟨0, Flags.none⟩).map (·.1) =
        .error (.logic_error "dynamic update produced a negative cycle count") := by
    decide +kernel
  refine ⟨DirectedGraph.well_formed_of_rows rfl rfl (by decide) (by decide), by decide +kernel,
    ⟨by decide, by decide, by decide, by decide⟩, ⟨by decide, by decide, by decide⟩, hrun,
    fun hsame => ?_⟩
  obtain ⟨histogram', buffer₁, buffer₂, -, hok⟩ := hsame.histograms ⟨0, Flags.none⟩ rfl
  rw [hok] at hrun
  cases hrun

end Sample

end CycleEnum.Dynamic
