import CycleEnum.Sequential.OverflowTheorems
import CycleEnum.Sequential.LateStarts
import CycleEnum.Sequential.TemporalInstances

namespace CycleEnum.Sequential

open TemporalJohnsonSearch

variable {graph : GraphView} {cap : Option Nat} {width : Int}

theorem temporal_counts (hw : graph.WellFormed) (h0 : 0 ≤ width) (hcap : ∀ limit ∈ cap, 2 ≤ limit) :
    CycleHistogram.Counts ((∅ : CycleHistogram).record (temporal_events graph width cap)) cap
      fun k => (temporal_cycles graph width k).ncard :=
  CycleHistogram.record_counts (temporal_events_two_le hw)
    (fun _ hk hle => temporal_tally_eq hw h0 hcap hk hle)
    (fun _ _ hle => temporal_tally_beyond hw h0 hcap hle)

theorem count_temporal_cycles_bruteforce_exact (hg : Parsed graph) (h0 : 0 ≤ width)
    (hno : NoWindowOverflow graph width) (hcap : ∀ limit ∈ cap, 2 ≤ limit)
    (hfit : CycleHistogram.NumbersFit cap fun k => (temporal_cycles graph width k).ncard) :
    CycleHistogram.Counts (count_temporal_cycles_bruteforce graph width cap) cap
      (fun k => (temporal_cycles graph width k).ncard) ↔
    graph.vertex_count < 2 ^ 32 := by
  constructor
  · intro hcounts
    obtain ⟨histogram, hok⟩ := hcounts.returns hfit
    by_contra hcount
    exact count_temporal_cycles_bruteforce_endless (Nat.le_of_not_lt hcount) histogram hok
  · intro hids
    have hw := hg.well_formed hids
    rw [count_temporal_cycles_bruteforce_eq hw h0 hno hcap]
    exact temporal_counts hw h0 hcap

theorem sample_instances_fit (cap : Option Nat) :
    CycleHistogram.NumbersFit cap fun k => (temporal_cycles (view_of sample_rows) 10 k).ncard := by
  have hw := sample_parsed.well_formed (by decide)
  have hok : ((∅ : CycleHistogram).record
      (temporal_events (view_of sample_rows) 10 none)).toBool = true := by decide +kernel
  intro k hk _
  exact (CycleHistogram.record_ok_iff (temporal_events_two_le hw)
    (fun _ hk hle => temporal_tally_eq hw (by decide) (by simp) hk hle)
    (fun _ _ hle => temporal_tally_beyond hw (by decide) (by simp) hle)).mp
      (returns_of_toBool hok) k hk (by simp)

theorem count_temporal_cycles_bruteforce_exact_sample :
    CycleHistogram.Counts (count_temporal_cycles_bruteforce (view_of sample_rows) 10 (some 3))
        (some 3) (fun k => (temporal_cycles (view_of sample_rows) 10 k).ncard) ↔
      (view_of sample_rows).vertex_count < 2 ^ 32 :=
  count_temporal_cycles_bruteforce_exact sample_parsed (by decide) sample_window (by decide)
    (sample_instances_fit _)

theorem wide_view_instances {k : Nat} (hk : 2 ≤ k) : (temporal_cycles wide_view 0 k).ncard = 0 := by
  rw [temporal_cycles_eq_empty hk (wide_view_cycles hk), Set.ncard_empty]

theorem wide_view_answer (cap : Option Nat) : ¬AnswerOverflows wide_view 0 cap := by
  rintro ⟨k, hk, -, hover⟩
  rw [wide_view_instances hk] at hover
  exact absurd hover (Nat.not_lt_zero _)

-- There is nothing to count, but the search does not come to an end.
theorem count_temporal_cycles_bruteforce_wide :
    Parsed wide_view ∧ NoWindowOverflow wide_view 0 ∧
      (∀ k, 2 ≤ k → (temporal_cycles wide_view 0 k).ncard = 0) ∧
      ∀ histogram, count_temporal_cycles_bruteforce wide_view 0 none ≠ .ok histogram :=
  ⟨wide_view_parsed, wide_view_window, fun _ hk => wide_view_instances hk,
    count_temporal_cycles_bruteforce_endless wide_view_vertex_count.ge⟩

-- The bundles hold the numbers of all partial paths, so one of these can overflow
-- where no count of cycles does.
theorem count_temporal_cycles_johnson_exact (hg : Parsed graph) (h0 : 0 ≤ width)
    (hmax : width ≤ MAX_TIMESTAMP) (hcap : ∀ limit ∈ cap, 2 ≤ limit) :
    (¬NoWindowOverflow graph width →
      (∃ what, count_temporal_cycles_johnson graph width cap = .error (.overflow_error what)) ∧
        ∃ what, count_temporal_cycles_bruteforce graph width cap = .error (.overflow_error what)) ∧
    (NoWindowOverflow graph width →
      (graph.vertex_count < 2 ^ 32 →
        (∃ histogram, count_temporal_cycles_johnson graph width cap = .ok histogram ∧
          count_temporal_cycles_bruteforce graph width cap = .ok histogram) ∨
        ∃ what, CountOverflow what ∧
          count_temporal_cycles_johnson graph width cap = .error (.overflow_error what)) ∧
      (¬AnswerOverflows graph width cap → PartialWaysFit graph width cap →
        ((∃ histogram, count_temporal_cycles_johnson graph width cap = .ok histogram ∧
          count_temporal_cycles_bruteforce graph width cap = .ok histogram) ↔
        graph.vertex_count < 2 ^ 32))) := by
  refine ⟨fun hover => ⟨count_temporal_cycles_johnson_overflows hg.trails_end h0 hover hcap hmax,
    count_temporal_cycles_bruteforce_overflows hg.trails_end h0 hover hcap⟩, fun hno => ?_⟩
  have hagree : graph.vertex_count < 2 ^ 32 →
      (∃ histogram, count_temporal_cycles_johnson graph width cap = .ok histogram ∧
        count_temporal_cycles_bruteforce graph width cap = .ok histogram) ∨
      ∃ what, CountOverflow what ∧
        count_temporal_cycles_johnson graph width cap = .error (.overflow_error what) := by
    intro hids
    have hw := hg.well_formed hids
    rw [count_temporal_cycles_bruteforce_eq hw h0 hno hcap]
    rcases count_temporal_cycles_johnson_gives hw h0 hmax hno hcap with ho | he
    · exact Or.inr ho
    · rw [he]
      rcases CycleHistogram.record_cases ∅ _ (temporal_events_two_le hw) with ⟨histogram, h⟩ | h
      · exact Or.inl ⟨histogram, h, h⟩
      · exact Or.inr ⟨_, Or.inl rfl, h⟩
  refine ⟨hagree, fun hanswer hways => ⟨?_, fun hids => ?_⟩⟩
  · rintro ⟨histogram, hok, -⟩
    by_contra hcount
    exact count_temporal_cycles_johnson_endless (Nat.le_of_not_lt hcount) histogram hok
  · obtain ⟨histogram, hok⟩ := (count_temporal_cycles_johnson_ok_of_fit (hg.well_formed hids) h0 hmax
      hcap hno hanswer).mpr hways
    rcases hagree hids with hboth | ⟨what, -, herror⟩
    · exact hboth
    · cases hok.symm.trans herror

theorem count_temporal_cycles_johnson_exact_sample :
    (∃ histogram, count_temporal_cycles_johnson (view_of sample_rows) 10 none = .ok histogram ∧
      count_temporal_cycles_bruteforce (view_of sample_rows) 10 none = .ok histogram) ∨
    ∃ what, CountOverflow what ∧
      count_temporal_cycles_johnson (view_of sample_rows) 10 none = .error (.overflow_error what) :=
  ((count_temporal_cycles_johnson_exact sample_parsed (by decide) (by decide) (by simp)).2
    sample_window).1 (by decide)

-- A partial path ends at the target of its first edge.
theorem wide_view_ways : PartialWaysFit wide_view 0 none := by
  have hstart : wide_view.outgoing_offsets.getD 0 0 = 0 :=
    (build_graph_view_ok (wide_built (Few.nil (by decide)))).2.2.2.1
  have harc : ∀ v, ∀ edge ∈ wide_view.outgoing_row v, v % 2 = 0 ∧ edge.vertex % 2 = 1 :=
    fun v edge hedge => wide_arc_parity (by decide) ⟨edge, mem_stored_row hstart hedge, rfl⟩
  intro root _ edge hedge time
  constructor
  · have hmem : edge ∈ wide_view.outgoing_edges :=
      List.mem_of_mem_drop (List.mem_of_mem_take (mem_stored_row hstart hedge))
    have hone := wide_view_single_timestamps edge hmem
    refine List.count_le_length.trans ?_
    rw [event_times, List.length_map, edge_events, List.length_range', hone, Nat.add_sub_cancel_left]
    decide
  · have hlast : wide_view.outgoing_row edge.vertex = [] := by
      refine List.eq_nil_iff_forall_not_mem.mpr fun next hnext => ?_
      have hodd := (harc root edge hedge).2
      have heven := (harc edge.vertex next hnext).1
      omega
    cases wide_view.vertex_count with
    | zero => trivial
    | succ fuel =>
        intro _ next hnext
        rw [hlast] at hnext
        cases hnext

theorem count_temporal_cycles_johnson_wide :
    Parsed wide_view ∧ NoWindowOverflow wide_view 0 ∧ ¬AnswerOverflows wide_view 0 none ∧
      PartialWaysFit wide_view 0 none ∧
      (∀ histogram, count_temporal_cycles_johnson wide_view 0 none ≠ .ok histogram) ∧
      ∀ histogram, count_temporal_cycles_bruteforce wide_view 0 none ≠ .ok histogram :=
  ⟨wide_view_parsed, wide_view_window, wide_view_answer none, wide_view_ways,
    count_temporal_cycles_johnson_endless wide_view_vertex_count.ge,
    count_temporal_cycles_bruteforce_endless wide_view_vertex_count.ge⟩

theorem count_temporal_cycles_read_tarjan_exact (hg : Parsed graph) (h0 : 0 ≤ width)
    (hmax : width ≤ MAX_TIMESTAMP) (hcap : ∀ limit ∈ cap, 2 ≤ limit) :
    (¬NoWindowOverflow graph width →
      (∃ what, count_temporal_cycles_read_tarjan graph width cap = .error (.overflow_error what)) ∧
        ∃ what, count_temporal_cycles_bruteforce graph width cap = .error (.overflow_error what)) ∧
    (NoWindowOverflow graph width →
      (graph.vertex_count < 2 ^ 32 →
        count_temporal_cycles_read_tarjan graph width cap =
          count_temporal_cycles_bruteforce graph width cap) ∧
      (¬AnswerOverflows graph width cap →
        ((∃ histogram, count_temporal_cycles_read_tarjan graph width cap = .ok histogram ∧
          count_temporal_cycles_bruteforce graph width cap = .ok histogram) ↔
        graph.vertex_count < 2 ^ 32))) := by
  refine ⟨fun hover => ⟨count_temporal_cycles_read_tarjan_overflows hg.trails_end h0 hover hcap hmax,
    count_temporal_cycles_bruteforce_overflows hg.trails_end h0 hover hcap⟩, fun hno => ?_⟩
  have hagree : graph.vertex_count < 2 ^ 32 →
      count_temporal_cycles_read_tarjan graph width cap =
        count_temporal_cycles_bruteforce graph width cap := by
    intro hids
    have hw := hg.well_formed hids
    rw [count_temporal_cycles_read_tarjan_eq hw h0 hmax hno hcap,
      count_temporal_cycles_bruteforce_eq hw h0 hno hcap]
  refine ⟨hagree, fun hanswer => ⟨?_, fun hids => ?_⟩⟩
  · rintro ⟨histogram, hok, -⟩
    by_contra hcount
    exact count_temporal_cycles_read_tarjan_endless (Nat.le_of_not_lt hcount) histogram hok
  · have hw := hg.well_formed hids
    obtain ⟨histogram, hok⟩ := (temporal_counts hw h0 hcap).returns fun k hk hle =>
      Nat.le_of_not_lt fun hover => hanswer ⟨k, hk, hle, hover⟩
    have hbrute := (count_temporal_cycles_bruteforce_eq hw h0 hno hcap).trans hok
    exact ⟨histogram, (hagree hids).trans hbrute, hbrute⟩

theorem count_temporal_cycles_read_tarjan_exact_sample :
    count_temporal_cycles_read_tarjan (view_of sample_rows) 10 (some 2) =
      count_temporal_cycles_bruteforce (view_of sample_rows) 10 (some 2) :=
  ((count_temporal_cycles_read_tarjan_exact sample_parsed (by decide) (by decide) (by decide)).2
    sample_window).1 (by decide)

theorem count_temporal_cycles_read_tarjan_wide :
    Parsed wide_view ∧ NoWindowOverflow wide_view 0 ∧ ¬AnswerOverflows wide_view 0 none ∧
      (∀ histogram, count_temporal_cycles_read_tarjan wide_view 0 none ≠ .ok histogram) ∧
      ∀ histogram, count_temporal_cycles_bruteforce wide_view 0 none ≠ .ok histogram :=
  ⟨wide_view_parsed, wide_view_window, wide_view_answer none,
    count_temporal_cycles_read_tarjan_endless wide_view_vertex_count.ge,
    count_temporal_cycles_bruteforce_endless wide_view_vertex_count.ge⟩

end CycleEnum.Sequential
