import CycleEnum.Sequential.JohnsonClosings
import CycleEnum.Sequential.ReadTarjanClosings
import CycleEnum.Sequential.Parsed

namespace CycleEnum.Sequential

open Enumeration

variable {graph : GraphView} {cap : Option Nat}

theorem static_counts (hw : graph.WellFormed) :
    CycleHistogram.Counts ((∅ : CycleHistogram).record (static_events graph cap)) cap
      fun k => (simple_cycles graph k).ncard :=
  CycleHistogram.record_counts (static_events_two_le hw)
    (fun _ hk hle => static_tally_eq hw hk hle) (fun _ hk hle => static_tally_beyond hw hk hle)

-- A count returns exactly where these numbers fit.
theorem static_record_ok_iff (hw : graph.WellFormed) :
    (∃ histogram, (∅ : CycleHistogram).record (static_events graph cap) = .ok histogram) ↔
      CycleHistogram.NumbersFit cap fun k => (simple_cycles graph k).ncard :=
  CycleHistogram.record_ok_iff (static_events_two_le hw)
    (fun _ hk hle => static_tally_eq hw hk hle) (fun _ hk hle => static_tally_beyond hw hk hle)

theorem count_simple_cycles_johnson_exact (hg : Parsed graph) (hcap : ∀ limit ∈ cap, 2 ≤ limit)
    (hfit : CycleHistogram.NumbersFit cap fun k => (simple_cycles graph k).ncard) :
    (count_simple_cycles_johnson graph cap = count_simple_cycles_bruteforce graph cap ∧
      CycleHistogram.Counts (count_simple_cycles_johnson graph cap) cap
        fun k => (simple_cycles graph k).ncard) ↔
    graph.vertex_count < 2 ^ 32 := by
  constructor
  · rintro ⟨-, hcounts⟩
    obtain ⟨histogram, hok⟩ := hcounts.returns hfit
    by_contra hcount
    exact count_simple_cycles_johnson_endless (Nat.le_of_not_lt hcount) histogram hok
  · intro hids
    have hw := hg.well_formed hids
    rw [count_simple_cycles_johnson_eq hw hcap, count_simple_cycles_bruteforce_eq hw hcap]
    exact ⟨rfl, static_counts hw⟩

theorem returns_of_toBool {result : Except Error CycleHistogram} (h : result.toBool = true) :
    ∃ histogram, result = .ok histogram := by
  cases result with
  | error error => cases h
  | ok histogram => exact ⟨histogram, rfl⟩

theorem sample_fits (cap : Option Nat) :
    CycleHistogram.NumbersFit cap fun k => (simple_cycles (view_of sample_rows) k).ncard := by
  have hw := sample_parsed.well_formed (by decide)
  have hok : ((∅ : CycleHistogram).record (static_events (view_of sample_rows) none)).toBool =
      true := by decide +kernel
  intro k hk _
  exact (static_record_ok_iff hw).mp (returns_of_toBool hok) k hk (by simp)

theorem count_simple_cycles_johnson_exact_sample :
    (count_simple_cycles_johnson (view_of sample_rows) (some 2) =
        count_simple_cycles_bruteforce (view_of sample_rows) (some 2) ∧
      CycleHistogram.Counts (count_simple_cycles_johnson (view_of sample_rows) (some 2)) (some 2)
        fun k => (simple_cycles (view_of sample_rows) k).ncard) ↔
    (view_of sample_rows).vertex_count < 2 ^ 32 :=
  count_simple_cycles_johnson_exact sample_parsed (by decide) (sample_fits _)

-- There is no cycle to count, but neither search comes to an end.
theorem count_simple_cycles_johnson_wide :
    Parsed wide_view ∧ (∀ k, 2 ≤ k → (simple_cycles wide_view k).ncard = 0) ∧
      (∀ histogram, count_simple_cycles_johnson wide_view none ≠ .ok histogram) ∧
      ∀ histogram, count_simple_cycles_bruteforce wide_view none ≠ .ok histogram :=
  ⟨wide_view_parsed, fun _ hk => wide_view_numbers hk,
    count_simple_cycles_johnson_endless wide_view_vertex_count.ge,
    count_simple_cycles_bruteforce_endless wide_view_vertex_count.ge⟩

theorem count_simple_cycles_read_tarjan_exact (hg : Parsed graph)
    (hcap : ∀ limit ∈ cap, 2 ≤ limit) :
    (graph.vertex_count < 2 ^ 32 →
      count_simple_cycles_read_tarjan graph cap = count_simple_cycles_bruteforce graph cap ∧
        count_simple_cycles_read_tarjan graph cap ≠ .error .unfinished) ∧
    (CycleHistogram.NumbersFit cap (fun k => (simple_cycles graph k).ncard) →
      ((∃ histogram, count_simple_cycles_read_tarjan graph cap = .ok histogram ∧
        count_simple_cycles_bruteforce graph cap = .ok histogram) ↔
      graph.vertex_count < 2 ^ 32)) := by
  have hagree : graph.vertex_count < 2 ^ 32 →
      count_simple_cycles_read_tarjan graph cap = count_simple_cycles_bruteforce graph cap ∧
        CycleHistogram.Counts (count_simple_cycles_read_tarjan graph cap) cap
          fun k => (simple_cycles graph k).ncard := by
    intro hids
    have hw := hg.well_formed hids
    rw [count_simple_cycles_read_tarjan_eq hw hcap, count_simple_cycles_bruteforce_eq hw hcap]
    exact ⟨rfl, static_counts hw⟩
  refine ⟨fun hids => ⟨(hagree hids).1, (hagree hids).2.finished⟩, fun hfit => ?_⟩
  constructor
  · rintro ⟨histogram, hok, -⟩
    by_contra hcount
    exact count_simple_cycles_read_tarjan_endless (Nat.le_of_not_lt hcount) histogram hok
  · intro hids
    obtain ⟨heq, hcounts⟩ := hagree hids
    obtain ⟨histogram, hok⟩ := hcounts.returns hfit
    exact ⟨histogram, hok, heq ▸ hok⟩

theorem count_simple_cycles_read_tarjan_exact_sample :
    ∃ histogram, count_simple_cycles_read_tarjan (view_of sample_rows) none = .ok histogram ∧
      count_simple_cycles_bruteforce (view_of sample_rows) none = .ok histogram :=
  ((count_simple_cycles_read_tarjan_exact sample_parsed (by simp)).2 (sample_fits _)).mpr
    (by decide)

theorem count_simple_cycles_read_tarjan_wide :
    Parsed wide_view ∧ (∀ k, 2 ≤ k → (simple_cycles wide_view k).ncard = 0) ∧
      ∀ histogram, count_simple_cycles_read_tarjan wide_view none ≠ .ok histogram :=
  ⟨wide_view_parsed, fun _ hk => wide_view_numbers hk,
    count_simple_cycles_read_tarjan_endless wide_view_vertex_count.ge⟩

section Window

variable {width : Int}

theorem window_tally_restrict (hw : graph.WellFormed) {limit : Nat} (hl : 2 ≤ limit) (k : Nat) :
    CycleHistogram.tally (window_events graph width (some limit)) k =
      if k ≤ limit then CycleHistogram.tally (window_events graph width none) k else 0 := by
  have hrow : ∀ start ∈ starts graph,
      CycleHistogram.tally ((window_closings graph width (some limit) start).map closing_event) k =
        if k ≤ limit then
          CycleHistogram.tally ((window_closings graph width none start).map closing_event) k
        else 0 := by
    intro start hs
    rw [tally_closings fun c hc => (window_closing_event hw hs hc).1,
      tally_closings fun c hc => (window_closing_event hw hs hc).1,
      ← window_closings_filter (by simpa using hl), List.countP_filter]
    split_ifs with hk
    · refine List.countP_congr fun closed _ => ?_
      simp only [Option.all_some, Bool.and_eq_true, decide_eq_true_eq]
      omega
    · refine List.countP_eq_zero.mpr fun closed _ => ?_
      simp only [Option.all_some, Bool.and_eq_true, decide_eq_true_eq]
      omega
  rw [window_events, window_events, CycleHistogram.tally_flatMap, CycleHistogram.tally_flatMap,
    List.map_congr_left hrow]
  split_ifs
  · rfl
  · simp

theorem window_record_ok_iff (hw : graph.WellFormed) :
    (∃ histogram, (∅ : CycleHistogram).record (window_events graph width cap) = .ok histogram) ↔
      ∀ k, CycleHistogram.tally (window_events graph width cap) k ≤ MAX_COUNT := by
  constructor
  · rintro ⟨histogram, hok⟩ k
    have hfit := CycleHistogram.fits_of_record (window_events_two_le hw) hok k
    rwa [CycleHistogram.count_empty, Nat.zero_add] at hfit
  · intro hfit
    obtain ⟨histogram, hok, -⟩ := CycleHistogram.record_ok ∅ _ (window_events_two_le hw) fun k => by
      rw [CycleHistogram.count_empty, Nat.zero_add]
      exact hfit k
    exact ⟨histogram, hok⟩

theorem count_time_window_cycles_johnson_unbounded (hg : Parsed graph) (h0 : 0 ≤ width)
    (hno : NoWindowOverflow graph width) :
    (graph.vertex_count < 2 ^ 32 → count_time_window_cycles_johnson graph width none =
      count_time_window_cycles_bruteforce graph width none) ∧
    ((∃ histogram, count_time_window_cycles_johnson graph width none = .ok histogram ∧
        count_time_window_cycles_bruteforce graph width none = .ok histogram) ↔
      graph.vertex_count < 2 ^ 32 ∧
        ∀ k, CycleHistogram.tally (window_events graph width none) k ≤ MAX_COUNT) := by
  have hagree : graph.vertex_count < 2 ^ 32 →
      count_time_window_cycles_johnson graph width none =
          (∅ : CycleHistogram).record (window_events graph width none) ∧
        count_time_window_cycles_bruteforce graph width none =
          (∅ : CycleHistogram).record (window_events graph width none) := by
    intro hids
    have hw := hg.well_formed hids
    exact ⟨count_time_window_cycles_johnson_eq hw h0 hno (by simp) fun _ _ => uncut_none _ _ _ _,
      count_time_window_cycles_bruteforce_eq hw h0 hno (by simp)⟩
  refine ⟨fun hids => (hagree hids).1.trans (hagree hids).2.symm, ?_⟩
  constructor
  · rintro ⟨histogram, hok, -⟩
    have hids : graph.vertex_count < 2 ^ 32 := by
      by_contra hcount
      exact count_time_window_cycles_johnson_endless (Nat.le_of_not_lt hcount) histogram hok
    exact ⟨hids, (window_record_ok_iff (hg.well_formed hids)).mp
      ⟨histogram, (hagree hids).1.symm.trans hok⟩⟩
  · rintro ⟨hids, hfit⟩
    obtain ⟨hjohnson, hbrute⟩ := hagree hids
    obtain ⟨histogram, hok⟩ := (window_record_ok_iff (hg.well_formed hids)).mpr hfit
    exact ⟨histogram, hjohnson.trans hok, hbrute.trans hok⟩

theorem count_time_window_cycles_johnson_unbounded_sample :
    count_time_window_cycles_johnson (view_of sample_rows) 10 none =
      count_time_window_cycles_bruteforce (view_of sample_rows) 10 none :=
  (count_time_window_cycles_johnson_unbounded sample_parsed (by decide) sample_window).1 (by decide)

theorem count_time_window_cycles_johnson_wide :
    Parsed wide_view ∧ NoWindowOverflow wide_view 0 ∧
      (∀ k, 2 ≤ k → (simple_cycles wide_view k).ncard = 0) ∧
      (∀ histogram, count_time_window_cycles_johnson wide_view 0 none ≠ .ok histogram) ∧
      ∀ histogram, count_time_window_cycles_bruteforce wide_view 0 none ≠ .ok histogram :=
  ⟨wide_view_parsed, wide_view_window, fun _ hk => wide_view_numbers hk,
    count_time_window_cycles_johnson_endless wide_view_vertex_count.ge,
    count_time_window_cycles_bruteforce_endless wide_view_vertex_count.ge⟩

-- A length bound loses cycles where the search skips a vertex that a call cut short by the
-- bound left blocked.
theorem count_time_window_cycles_johnson_bounded (hg : Parsed graph) (h0 : 0 ≤ width)
    (hno : NoWindowOverflow graph width) {limit : Nat} (hl : 2 ≤ limit)
    (hrevisits : ∀ start ∈ starts graph, ¬StartRevisits graph width (some limit) start) :
    (graph.vertex_count < 2 ^ 32 ∧
        (∀ start ∈ starts graph, ¬StartLoses graph width (some limit) start) →
      count_time_window_cycles_johnson graph width (some limit) =
          count_time_window_cycles_bruteforce graph width (some limit) ∧
        ∀ histogram, count_time_window_cycles_johnson graph width none = .ok histogram →
          count_time_window_cycles_johnson graph width (some limit) =
            .ok (histogram.restrict limit)) ∧
    ∀ histogram, count_time_window_cycles_bruteforce graph width (some limit) = .ok histogram →
      count_time_window_cycles_johnson graph width (some limit) = .ok histogram →
        graph.vertex_count < 2 ^ 32 ∧
          ∀ start ∈ starts graph, ¬StartLoses graph width (some limit) start := by
  have hcap : ∀ l ∈ some limit, 2 ≤ l := by simpa using hl
  constructor
  · rintro ⟨hids, hlost⟩
    have hw := hg.well_formed hids
    obtain ⟨henough, -⟩ := count_time_window_cycles_johnson_part hw h0 hno hcap hrevisits
    rw [count_time_window_cycles_bruteforce_eq hw h0 hno hcap,
      count_time_window_cycles_johnson_eq hw h0 hno (by simp) fun _ _ => uncut_none _ _ _ _,
      henough hlost]
    exact ⟨rfl, fun histogram => CycleHistogram.record_restrict (window_events_two_le hw)
      (window_events_two_le hw) (window_tally_restrict hw hl)⟩
  · intro histogram hbrute hjohnson
    have hids : graph.vertex_count < 2 ^ 32 := by
      by_contra hcount
      exact count_time_window_cycles_johnson_endless (Nat.le_of_not_lt hcount) histogram hjohnson
    have hw := hg.well_formed hids
    rw [count_time_window_cycles_bruteforce_eq hw h0 hno hcap] at hbrute
    obtain ⟨-, hneeded⟩ := count_time_window_cycles_johnson_part hw h0 hno hcap hrevisits
    exact ⟨hids, hneeded histogram hbrute hjohnson⟩

theorem count_time_window_cycles_johnson_bounded_sample :
    count_time_window_cycles_johnson (view_of sample_rows) 10 (some 3) =
        count_time_window_cycles_bruteforce (view_of sample_rows) 10 (some 3) ∧
      ∀ histogram, count_time_window_cycles_johnson (view_of sample_rows) 10 none = .ok histogram →
        count_time_window_cycles_johnson (view_of sample_rows) 10 (some 3) =
          .ok (histogram.restrict 3) :=
  (count_time_window_cycles_johnson_bounded sample_parsed (by decide) sample_window (by decide)
    (by decide +kernel)).1 ⟨by decide, by decide +kernel⟩

-- From the start edge 0 → 1 the path 0, 1, 2, 3 is too long for the bound. The
-- vertex 3 stays blocked and the cycle 0, 1, 3, 4 is never seen.
def blocked_rows : List RawTemporalEdge :=
  [⟨0, 1, 0⟩, ⟨1, 2, 1⟩, ⟨2, 3, 1⟩, ⟨1, 3, 1⟩, ⟨3, 4, 1⟩, ⟨4, 0, 1⟩]

theorem count_time_window_cycles_johnson_loses :
    Parsed (view_of blocked_rows) ∧ NoWindowOverflow (view_of blocked_rows) 10 ∧
      count_time_window_cycles_johnson (view_of blocked_rows) 10 (some 4) ≠
        (count_time_window_cycles_johnson (view_of blocked_rows) 10 none).map (·.restrict 4) ∧
      count_time_window_cycles_johnson (view_of blocked_rows) 10 (some 4) ≠
        count_time_window_cycles_bruteforce (view_of blocked_rows) 10 (some 4) := by
  refine ⟨⟨blocked_rows, rfl⟩, ?_, ?_, ?_⟩
  · unfold NoWindowOverflow
    decide
  · decide +kernel
  · decide +kernel

theorem count_time_window_cycles_read_tarjan_exact (hg : Parsed graph) (h0 : 0 ≤ width)
    (hno : NoWindowOverflow graph width) (hcap : ∀ limit ∈ cap, 2 ≤ limit) :
    (graph.vertex_count < 2 ^ 32 ∧ (∀ start ∈ starts graph, ¬Misses graph width cap start) →
      count_time_window_cycles_read_tarjan graph width cap =
        count_time_window_cycles_bruteforce graph width cap) ∧
    ∀ histogram, count_time_window_cycles_bruteforce graph width cap = .ok histogram →
      count_time_window_cycles_read_tarjan graph width cap = .ok histogram →
        graph.vertex_count < 2 ^ 32 ∧ ∀ start ∈ starts graph, ¬Misses graph width cap start := by
  constructor
  · rintro ⟨hids, hmissed⟩
    have hw := hg.well_formed hids
    rw [count_time_window_cycles_bruteforce_eq hw h0 hno hcap]
    exact count_time_window_cycles_read_tarjan_eq hw h0 hno hcap hmissed
  · intro histogram hbrute hread
    have hids : graph.vertex_count < 2 ^ 32 := by
      by_contra hcount
      exact count_time_window_cycles_read_tarjan_endless (Nat.le_of_not_lt hcount) histogram hread
    have hw := hg.well_formed hids
    rw [count_time_window_cycles_bruteforce_eq hw h0 hno hcap] at hbrute
    exact ⟨hids, (count_time_window_cycles_read_tarjan_ok_iff hw h0 hno hcap hbrute).mp hread⟩

theorem count_time_window_cycles_read_tarjan_exact_sample :
    count_time_window_cycles_read_tarjan (view_of sample_rows) 10 none =
      count_time_window_cycles_bruteforce (view_of sample_rows) 10 none :=
  (count_time_window_cycles_read_tarjan_exact sample_parsed (by decide) sample_window
    (by simp)).1 ⟨by decide, fun start hs =>
      not_misses_of_head (sample_parsed.well_formed (by decide)) hs
        (by revert start; decide +kernel)⟩

-- From the start edge 2 → 0 the way on over 0 → 1 is found before the direct arc
-- 0 → 2, which is then never tried.
def missed_rows : List RawTemporalEdge := [⟨2, 0, 0⟩, ⟨0, 1, 1⟩, ⟨0, 2, 1⟩, ⟨1, 2, 1⟩]

theorem count_time_window_cycles_read_tarjan_misses :
    Parsed (view_of missed_rows) ∧ NoWindowOverflow (view_of missed_rows) 10 ∧
      count_time_window_cycles_read_tarjan (view_of missed_rows) 10 none ≠
        count_time_window_cycles_bruteforce (view_of missed_rows) 10 none := by
  refine ⟨⟨missed_rows, rfl⟩, ?_, ?_⟩
  · unfold NoWindowOverflow
    decide
  · decide +kernel

theorem window_counts (hw : graph.WellFormed) (hone : SingleTimestamps graph) (h0 : 0 ≤ width)
    (hcap : ∀ limit ∈ cap, 2 ≤ limit) :
    CycleHistogram.Counts ((∅ : CycleHistogram).record (window_events graph width cap)) cap
      fun k => (window_cycles graph width k).ncard :=
  CycleHistogram.record_counts (window_events_two_le hw)
    (fun _ hk hle => window_tally_eq hw hone h0 hcap hk hle)
    (fun _ hk hle => window_tally_beyond hw hone h0 hcap hk hle)

theorem window_fits_of_simple (hw : graph.WellFormed)
    (hfit : CycleHistogram.NumbersFit cap fun k => (simple_cycles graph k).ncard) :
    CycleHistogram.NumbersFit cap fun k => (window_cycles graph width k).ncard := by
  intro k hk hle
  exact (Set.ncard_le_ncard (fun _ hc => hc.1) (simple_cycles_finite hw hk)).trans (hfit k hk hle)

theorem count_time_window_cycles_bruteforce_exact (hg : Parsed graph)
    (hone : SingleTimestamps graph) (h0 : 0 ≤ width) (hno : NoWindowOverflow graph width)
    (hcap : ∀ limit ∈ cap, 2 ≤ limit)
    (hfit : CycleHistogram.NumbersFit cap fun k => (window_cycles graph width k).ncard) :
    (CycleHistogram.Counts (count_time_window_cycles_bruteforce graph width cap) cap
        (fun k => (window_cycles graph width k).ncard) ∧
      ((∀ time ∈ graph.timestamps, ∀ time' ∈ graph.timestamps, time - time' ≤ width) →
        count_time_window_cycles_bruteforce graph width cap =
          count_simple_cycles_bruteforce graph cap)) ↔
    graph.vertex_count < 2 ^ 32 := by
  constructor
  · rintro ⟨hcounts, -⟩
    obtain ⟨histogram, hok⟩ := hcounts.returns hfit
    by_contra hcount
    exact count_time_window_cycles_bruteforce_endless (Nat.le_of_not_lt hcount) histogram hok
  intro hids
  have hw := hg.well_formed hids
  rw [count_time_window_cycles_bruteforce_eq hw h0 hno hcap,
    count_simple_cycles_bruteforce_eq hw hcap]
  refine ⟨window_counts hw hone h0 hcap, fun hspread => ?_⟩
  refine CycleHistogram.record_congr (window_events_two_le hw) (static_events_two_le hw) fun k => ?_
  by_cases hk : 2 ≤ k
  · by_cases hle : ∀ limit ∈ cap, k ≤ limit
    · rw [window_tally_eq hw hone h0 hcap hk hle, static_tally_eq hw hk hle,
        window_cycles_eq_of_spread hw hone hspread hk]
    · rw [window_tally_beyond hw hone h0 hcap hk hle, static_tally_beyond hw hk hle]
  · rw [CycleHistogram.tally_eq_zero (window_events_two_le hw) (by omega),
      CycleHistogram.tally_eq_zero (static_events_two_le hw) (by omega)]

theorem count_time_window_cycles_bruteforce_exact_sample :
    CycleHistogram.Counts (count_time_window_cycles_bruteforce (view_of sample_rows) 10 none) none
        (fun k => (window_cycles (view_of sample_rows) 10 k).ncard) ∧
      count_time_window_cycles_bruteforce (view_of sample_rows) 10 none =
        count_simple_cycles_bruteforce (view_of sample_rows) none :=
  have hfit := (window_fits_of_simple (sample_parsed.well_formed (by decide)) (sample_fits none))
  have h := (count_time_window_cycles_bruteforce_exact sample_parsed (by decide) (by decide)
    sample_window (by simp) hfit).mpr (by decide)
  ⟨h.1, h.2 (by decide)⟩

theorem count_time_window_cycles_bruteforce_wide :
    Parsed wide_view ∧ SingleTimestamps wide_view ∧ NoWindowOverflow wide_view 0 ∧
      (∀ k, 2 ≤ k → (window_cycles wide_view 0 k).ncard = 0) ∧
      ¬CycleHistogram.Counts (count_time_window_cycles_bruteforce wide_view 0 none) none
        fun k => (window_cycles wide_view 0 k).ncard := by
  have hnumbers : ∀ k, 2 ≤ k → (window_cycles wide_view 0 k).ncard = 0 := fun k hk => by
    have hnone : window_cycles wide_view 0 k = ∅ :=
      Set.subset_eq_empty (fun _ hc => hc.1) (wide_view_cycles hk)
    rw [hnone, Set.ncard_empty]
  refine ⟨wide_view_parsed, wide_view_single_timestamps, wide_view_window, hnumbers, fun hcounts => ?_⟩
  obtain ⟨histogram, hok⟩ := hcounts.returns fun k hk _ => (hnumbers k hk).trans_le (Nat.zero_le _)
  exact count_time_window_cycles_bruteforce_endless wide_view_vertex_count.ge histogram hok

end Window

end CycleEnum.Sequential
