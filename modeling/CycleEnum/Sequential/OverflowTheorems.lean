import CycleEnum.Sequential.TemporalWays
import CycleEnum.Sequential.Theorems

namespace CycleEnum.Sequential

open TemporalJohnsonSearch

variable {graph : GraphView} {cap : Option Nat} {width : Int}

-- Some number of cycles of a counted length is out of range.
def AnswerOverflows (graph : GraphView) (width : Int) (cap : Option Nat) : Prop :=
  ∃ k, 2 ≤ k ∧ (∀ limit ∈ cap, k ≤ limit) ∧ MAX_COUNT < (temporal_cycles graph width k).ncard

-- Nothing else keeps the call from returning a histogram.
def OverflowsOnlyWithAnswer (graph : GraphView) (width : Int) (cap : Option Nat) : Prop :=
  NoWindowOverflow graph width → ¬AnswerOverflows graph width cap →
    ∃ histogram, count_temporal_cycles_johnson graph width cap = .ok histogram

theorem temporal_tally_le (hw : graph.WellFormed) (h0 : 0 ≤ width)
    (hcap : ∀ limit ∈ cap, 2 ≤ limit) (hanswer : ¬AnswerOverflows graph width cap) (k : Nat) :
    CycleHistogram.tally (temporal_events graph width cap) k ≤ MAX_COUNT := by
  by_cases hk : 2 ≤ k
  · by_cases hle : ∀ limit ∈ cap, k ≤ limit
    · rw [temporal_tally_eq hw h0 hcap hk hle]
      exact Nat.le_of_not_lt fun hover => hanswer ⟨k, hk, hle, hover⟩
    · rw [temporal_tally_beyond hw h0 hcap hle]
      exact Nat.zero_le _
  · rw [CycleHistogram.tally_eq_zero (temporal_events_two_le hw) (by omega)]
    exact Nat.zero_le _

-- Where windows and answers are in range, the count ends well exactly where the partial
-- counts are in range too.
theorem count_temporal_cycles_johnson_ok_of_fit (hw : graph.WellFormed) (h0 : 0 ≤ width)
    (hmax : width ≤ MAX_TIMESTAMP) (hcap : ∀ limit ∈ cap, 2 ≤ limit)
    (hno : NoWindowOverflow graph width) (hanswer : ¬AnswerOverflows graph width cap) :
    (∃ histogram, count_temporal_cycles_johnson graph width cap = .ok histogram) ↔
      PartialWaysFit graph width cap := by
  have htally := temporal_tally_le hw h0 hcap hanswer
  have hrecord : ∃ histogram,
      (∅ : CycleHistogram).record (temporal_events graph width cap) = .ok histogram := by
    obtain ⟨histogram, hok, -⟩ := CycleHistogram.record_ok ∅ _ (temporal_events_two_le hw)
      fun k => by
        rw [CycleHistogram.count_empty, Nat.zero_add]
        exact htally k
    exact ⟨histogram, hok⟩
  rw [count_temporal_cycles_johnson_ok_iff hw h0 hmax hcap, and_iff_left hrecord]
  exact paths_fit_iff hw hno htally

-- An overflow is due to a window or to an answer exactly where the loop over the roots ends and no
-- number of partial paths overflows on its own.
theorem count_temporal_cycles_johnson_overflow_iff (hg : Parsed graph) (h0 : 0 ≤ width)
    (hmax : width ≤ MAX_TIMESTAMP) (hcap : ∀ limit ∈ cap, 2 ≤ limit) :
    OverflowsOnlyWithAnswer graph width cap ↔
      ¬NoWindowOverflow graph width ∨ AnswerOverflows graph width cap ∨
        (graph.vertex_count < 2 ^ 32 ∧ PartialWaysFit graph width cap) := by
  by_cases hno : NoWindowOverflow graph width
  swap
  · exact iff_of_true (fun h => absurd h hno) (Or.inl hno)
  by_cases hanswer : AnswerOverflows graph width cap
  · exact iff_of_true (fun _ h => absurd hanswer h) (Or.inr (Or.inl hanswer))
  constructor
  · intro honly
    obtain ⟨histogram, hok⟩ := honly hno hanswer
    have hids : graph.vertex_count < 2 ^ 32 := by
      by_contra hcount
      exact count_temporal_cycles_johnson_endless (Nat.le_of_not_lt hcount) histogram hok
    exact Or.inr (Or.inr ⟨hids, (count_temporal_cycles_johnson_ok_of_fit (hg.well_formed hids) h0
      hmax hcap hno hanswer).mp ⟨histogram, hok⟩⟩)
  · rintro (hover | hover | ⟨hids, hfits⟩)
    · exact absurd hno hover
    · exact absurd hover hanswer
    · exact fun _ _ => (count_temporal_cycles_johnson_ok_of_fit (hg.well_formed hids) h0 hmax hcap
        hno hanswer).mpr hfits

section Chain

theorem chain_of_events {root v : Nat} (path : List Nat) {events : List Nat}
    (h : List.Forall₂ (fun edge event => is_event graph edge.1 edge.2 event)
      ((v :: path).zip (path ++ [root])) events) :
    (v :: path ++ [root]).IsChain (Arc graph) := by
  induction path generalizing v events with
  | nil =>
      obtain ⟨event, more, hedge, -, -⟩ := List.forall₂_cons_left_iff.mp h
      obtain ⟨edge, he, hv, -⟩ := hedge
      exact List.isChain_pair.mpr ⟨edge, he, hv⟩
  | cons w path ih =>
      rw [List.cons_append, List.zip_cons_cons] at h
      obtain ⟨event, more, hedge, hrest, -⟩ := List.forall₂_cons_left_iff.mp h
      obtain ⟨edge, he, hv, -⟩ := hedge
      exact List.isChain_cons_cons.mpr ⟨⟨edge, he, hv⟩, ih hrest⟩

-- Without its events a cycle is a simple cycle of the graph.
theorem TemporalCycle.simple_cycle {vertices events : List Nat}
    (h : TemporalCycle graph width vertices events) (hk : 2 ≤ vertices.length) :
    (↑vertices : Cycle Nat) ∈ simple_cycles graph vertices.length := by
  obtain ⟨root, first, rest, event, more, rfl, rfl⟩ := h.vertices_ne_nil hk
  refine ⟨h.nodup, rfl, ?_⟩
  have hrotate : (root :: first :: rest).rotate 1 = first :: (rest ++ [root]) := by simp
  have hedges := h.on_edges
  rw [hrotate] at hedges
  rw [Cycle.chain_coe_cons]
  exact chain_of_events (first :: rest) hedges

theorem temporal_cycles_eq_empty {k : Nat} (hk : 2 ≤ k) (h : simple_cycles graph k = ∅) :
    temporal_cycles graph width k = ∅ := by
  rw [Set.eq_empty_iff_forall_notMem]
  rintro ⟨vertices, events⟩ ⟨hlen, hcycle⟩
  obtain rfl : vertices.length = k := hlen
  have hmem := hcycle.simple_cycle hk
  rw [h] at hmem
  exact hmem

end Chain

theorem count_temporal_cycles_johnson_overflow_iff_sample :
    OverflowsOnlyWithAnswer (view_of sample_rows) 10 (some 3) ↔
      ¬NoWindowOverflow (view_of sample_rows) 10 ∨ AnswerOverflows (view_of sample_rows) 10 (some 3) ∨
        ((view_of sample_rows).vertex_count < 2 ^ 32 ∧
          PartialWaysFit (view_of sample_rows) 10 (some 3)) :=
  count_temporal_cycles_johnson_overflow_iff sample_parsed (by decide) (by decide) (by decide)

-- A lane with four events to each next vertex, and one event back from it, later the
-- nearer it is to the first vertex.
def lane_rows (length : Nat) : List RawTemporalEdge :=
  (List.range length).flatMap fun i =>
    ⟨(i + 1 : Nat), i, (2 * length - i : Nat)⟩ :: List.replicate 4 ⟨i, (i + 1 : Nat), i⟩

def lane : GraphView := view_of (lane_rows 32)

theorem lane_parsed : Parsed lane := ⟨lane_rows 32, by decide +kernel⟩

theorem lane_well_formed : lane.WellFormed := lane_parsed.well_formed (by decide +kernel)

-- All cycles of the lane go forth and back between two vertices.
theorem lane_simple_cycles {k : Nat} (hk : 3 ≤ k) : simple_cycles lane k = ∅ := by
  have hw := lane_well_formed
  have htwo : ∀ event ∈ static_events lane none, event.1 = 2 := by decide +kernel
  have htally : CycleHistogram.tally (static_events lane none) k = 0 :=
    CycleHistogram.tally_of_not_mem fun event he => by
      have := htwo event he
      omega
  rw [static_tally_eq hw (by omega) (by simp)] at htally
  exact (Set.ncard_eq_zero (simple_cycles_finite hw (by omega))).mp htally

theorem lane_answer : ¬AnswerOverflows lane 64 none := by
  rintro ⟨k, hk, -, hover⟩
  by_cases htwo : k = 2
  · subst htwo
    have hle : CycleHistogram.tally (temporal_events lane 64 (some 2)) 2 ≤ MAX_COUNT := by
      decide +kernel
    rw [temporal_tally_eq lane_well_formed (by decide) (by simp) hk (by simp)] at hle
    omega
  · rw [temporal_cycles_eq_empty hk (lane_simple_cycles (by omega)), Set.ncard_empty] at hover
    omega

-- The paths to the end of the lane overflow, though none of them is part of a cycle of
-- more than two vertices.
theorem count_temporal_cycles_johnson_overflow_lane :
    Parsed lane ∧ ¬OverflowsOnlyWithAnswer lane 64 none := by
  refine ⟨lane_parsed, fun honly => ?_⟩
  have herror : count_temporal_cycles_johnson lane 64 none =
      .error (.overflow_error "temporal path count overflow") := by decide +kernel
  have hno : NoWindowOverflow lane 64 := by
    unfold NoWindowOverflow
    decide +kernel
  obtain ⟨histogram, hok⟩ := honly hno lane_answer
  cases herror.symm.trans hok

end CycleEnum.Sequential
