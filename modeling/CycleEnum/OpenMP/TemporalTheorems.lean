import CycleEnum.OpenMP.TemporalErrors
import CycleEnum.Sequential.TemporalTheorems

namespace CycleEnum.OpenMP

open CycleEnum.Sequential (Parsed NoWindowOverflow view_of sample_rows sample_parsed sample_window
  wide_view wide_view_parsed wide_view_vertex_count wide_view_window)
variable {graph : GraphView} {cap : Option Nat} {width : Int} {available : Bool}
  {requested_threads : Int}

-- A team of any size on any schedule returns exactly what one worker returns, the
-- counters included, however its workers were used before.
theorem run_team_schedule_independent (hcount : graph.vertex_count < 2 ^ 32) (h0 : 0 ≤ width)
    (hmax : width ≤ MAX_TIMESTAMP) (hcap : ∀ limit ∈ cap, 2 ≤ limit) (hthreads : 1 ≤ requested_threads)
    (havailable : available = true ∨ requested_threads = 1) {schedule : List (Nat × Nat)}
    (hs : IsSchedule requested_threads.toNat graph.vertex_count schedule) :
    (∀ result, TemporalJohnson.count_temporal_cycles_johnson_with_stats graph width available
        requested_threads cap schedule = .returned result ↔
      Sequential.count_temporal_cycles_johnson_with_stats graph width cap = .ok result) ∧
    (∀ result, TemporalReadTarjan.count_temporal_cycles_read_tarjan_with_stats graph width available
        requested_threads cap schedule = .returned result ↔
      TemporalReadTarjan.count_temporal_cycles_read_tarjan_with_stats graph width available 1 cap
        [] = .returned result) ∧
    ∀ histogram, (∃ stats,
        TemporalReadTarjan.count_temporal_cycles_read_tarjan_with_stats graph width available
          requested_threads cap schedule = .returned ⟨histogram, stats⟩) ↔
      Sequential.count_temporal_cycles_read_tarjan graph width cap = .ok histogram := by
  have hiff := fun result =>
    TemporalReadTarjan.count_temporal_cycles_read_tarjan_with_stats_iff hcount h0 hmax hcap hthreads
      havailable hs result
  refine ⟨fun result => TemporalJohnson.count_temporal_cycles_johnson_with_stats_iff hcount h0 hmax hcap
    hthreads havailable hs result, fun result => ?_, fun histogram => ?_⟩
  · rw [hiff, TemporalReadTarjan.count_temporal_cycles_read_tarjan_with_stats_one,
      Outcome.serial_eq_returned_iff]
  · rw [← TemporalReadTarjan.count_single_thread_histogram h0 hmax hcap]
    simp only [hiff]
    cases hsingle : TemporalReadTarjan.count_single_thread graph width cap with
    | error error => simp [Except.map]
    | ok result =>
        simp only [Except.map, Except.ok.injEq]
        constructor
        · intro h
          obtain ⟨stats, rfl⟩ := h
          rfl
        · intro h
          exact ⟨result.stats, h ▸ rfl⟩

theorem count_temporal_cycles_read_tarjan_one_endless (hcount : 2 ^ 32 ≤ graph.vertex_count)
    (result : TemporalReadTarjanResult) :
    TemporalReadTarjan.count_temporal_cycles_read_tarjan_with_stats graph width available 1 cap [] ≠
      .returned result := by
  intro hone
  rw [TemporalReadTarjan.count_temporal_cycles_read_tarjan_with_stats_one,
    Outcome.serial_eq_returned_iff, TemporalReadTarjan.count_single_thread] at hone
  obtain ⟨total, htotal⟩ := (map_ok_iff _ _).mp ⟨result, hone⟩
  exact run_single_endless hcount total htotal

-- From 2^32 vertices on there is nothing to agree with: one thread never comes to the end of the
-- roots.
theorem count_temporal_cycles_schedule_independent (h0 : 0 ≤ width) (hmax : width ≤ MAX_TIMESTAMP)
    (hcap : ∀ limit ∈ cap, 2 ≤ limit) (hthreads : 1 ≤ requested_threads)
    (havailable : available = true ∨ requested_threads = 1) {schedule : List (Nat × Nat)}
    (hs : IsSchedule requested_threads.toNat graph.vertex_count schedule) :
    (graph.vertex_count < 2 ^ 32 →
      (∀ result, TemporalJohnson.count_temporal_cycles_johnson_with_stats graph width available
          requested_threads cap schedule = .returned result ↔
        Sequential.count_temporal_cycles_johnson_with_stats graph width cap = .ok result) ∧
      (∀ result, TemporalReadTarjan.count_temporal_cycles_read_tarjan_with_stats graph width
          available requested_threads cap schedule = .returned result ↔
        TemporalReadTarjan.count_temporal_cycles_read_tarjan_with_stats graph width available 1 cap
          [] = .returned result) ∧
      ∀ histogram, (∃ stats,
          TemporalReadTarjan.count_temporal_cycles_read_tarjan_with_stats graph width available
            requested_threads cap schedule = .returned ⟨histogram, stats⟩) ↔
        Sequential.count_temporal_cycles_read_tarjan graph width cap = .ok histogram) ∧
    (2 ^ 32 ≤ graph.vertex_count →
      (∀ result, Sequential.count_temporal_cycles_johnson_with_stats graph width cap ≠ .ok result) ∧
      (∀ result, TemporalReadTarjan.count_temporal_cycles_read_tarjan_with_stats graph width
        available 1 cap [] ≠ .returned result) ∧
      ∀ histogram, Sequential.count_temporal_cycles_read_tarjan graph width cap ≠ .ok histogram) := by
  refine ⟨fun hcount =>
    run_team_schedule_independent hcount h0 hmax hcap hthreads havailable hs, fun hcount =>
    ⟨Sequential.count_temporal_cycles_johnson_with_stats_endless hcount, fun result hone => ?_,
      Sequential.count_temporal_cycles_read_tarjan_endless hcount⟩⟩
  exact count_temporal_cycles_read_tarjan_one_endless hcount result hone

theorem count_temporal_cycles_schedule_independent_sample :
    ∃ result, TemporalJohnson.count_temporal_cycles_johnson_with_stats (view_of sample_rows) 10 true
      2 none [(1, 2), (0, 1), (1, 0)] = .returned result :=
  ⟨_, (((count_temporal_cycles_schedule_independent (by decide) (by decide) (by simp)
    (show (1 : Int) ≤ 2 by decide) (Or.inl rfl) ⟨by decide, by decide⟩).1 (by decide)).1 _).mpr rfl⟩

theorem count_temporal_cycles_wide :
    Parsed wide_view ∧ NoWindowOverflow wide_view 0 ∧
      (∀ result, Sequential.count_temporal_cycles_johnson_with_stats wide_view 0 none ≠ .ok result) ∧
      (∀ result, TemporalReadTarjan.count_temporal_cycles_read_tarjan_with_stats wide_view 0 true 1
        none [] ≠ .returned result) ∧
      ∀ histogram, Sequential.count_temporal_cycles_read_tarjan wide_view 0 none ≠ .ok histogram :=
  ⟨wide_view_parsed, wide_view_window,
    Sequential.count_temporal_cycles_johnson_with_stats_endless wide_view_vertex_count.ge,
    count_temporal_cycles_read_tarjan_one_endless wide_view_vertex_count.ge,
    Sequential.count_temporal_cycles_read_tarjan_endless wide_view_vertex_count.ge⟩

-- With more than one thread no exception may be thrown at all: the workers check
-- their arguments and search inside the parallel region.
theorem count_temporal_cycles_errors_reach_iff (hg : Parsed graph) (hmax : width ≤ MAX_TIMESTAMP)
    (hthreads : 1 < requested_threads) :
    (ErrorsReach requested_threads.toNat graph.vertex_count
        (TemporalJohnson.count_temporal_cycles_johnson graph width true 1 cap [])
        (TemporalJohnson.count_temporal_cycles_johnson graph width true requested_threads cap) ↔
      graph.vertex_count < 2 ^ 32 ∧ (0 ≤ width ∧ ∀ limit ∈ cap, 2 ≤ limit) ∧
        Sequential.TemporalJohnsonSearch.PathsFit graph width cap ∧ CyclesFit graph width cap) ∧
    (ErrorsReach requested_threads.toNat graph.vertex_count
        (TemporalReadTarjan.count_temporal_cycles_read_tarjan graph width true 1 cap [])
        (TemporalReadTarjan.count_temporal_cycles_read_tarjan graph width true requested_threads
          cap) ↔
      graph.vertex_count < 2 ^ 32 ∧ (0 ≤ width ∧ ∀ limit ∈ cap, 2 ≤ limit) ∧
        NoWindowOverflow graph width ∧ CyclesFit graph width cap) := by
  by_cases hcount : graph.vertex_count < 2 ^ 32
  · have hw := hg.well_formed hcount
    simp only [hcount, true_and]
    exact ⟨errors_reach_johnson_iff hw hmax hthreads,
      errors_reach_read_tarjan_iff hw hmax hthreads⟩
  · have hwide := Nat.le_of_not_lt hcount
    exact ⟨iff_of_false (errors_lost_johnson hwide hthreads) fun h => hcount h.1,
      iff_of_false (errors_lost_read_tarjan hwide hthreads) fun h => hcount h.1⟩

theorem count_temporal_cycles_errors_reach_iff_sample :
    ErrorsReach 2 (view_of sample_rows).vertex_count
        (TemporalReadTarjan.count_temporal_cycles_read_tarjan (view_of sample_rows) 10 true 1 none [])
        (TemporalReadTarjan.count_temporal_cycles_read_tarjan (view_of sample_rows) 10 true 2 none) ↔
      (view_of sample_rows).vertex_count < 2 ^ 32 ∧
        ((0 : Int) ≤ 10 ∧ ∀ limit ∈ (none : Option Nat), 2 ≤ limit) ∧
        NoWindowOverflow (view_of sample_rows) 10 ∧ CyclesFit (view_of sample_rows) 10 none :=
  (count_temporal_cycles_errors_reach_iff sample_parsed (by decide) (show (1 : Int) < 2 by decide)).2

-- A negative width, which one thread rejects, ends the program with two.
theorem count_temporal_cycles_terminates :
    (TemporalJohnson.count_temporal_cycles_johnson (view_of sample_rows) (-1) true 1 none [] =
        .threw (.invalid_argument "time window width must be non-negative") ∧
      TemporalJohnson.count_temporal_cycles_johnson (view_of sample_rows) (-1) true 2 none
        [(0, 0), (1, 1), (0, 2)] = .terminated ∧
      ¬ErrorsReach 2 (view_of sample_rows).vertex_count
        (TemporalJohnson.count_temporal_cycles_johnson (view_of sample_rows) (-1) true 1 none [])
        (TemporalJohnson.count_temporal_cycles_johnson (view_of sample_rows) (-1) true 2 none)) ∧
    (TemporalReadTarjan.count_temporal_cycles_read_tarjan (view_of sample_rows) (-1) true 1 none
        [] = .threw (.invalid_argument "time window width must be non-negative") ∧
      TemporalReadTarjan.count_temporal_cycles_read_tarjan (view_of sample_rows) (-1) true 2 none
        [(0, 0), (1, 1), (0, 2)] = .terminated ∧
      ¬ErrorsReach 2 (view_of sample_rows).vertex_count
        (TemporalReadTarjan.count_temporal_cycles_read_tarjan (view_of sample_rows) (-1) true 1 none
          [])
        (TemporalReadTarjan.count_temporal_cycles_read_tarjan (view_of sample_rows) (-1) true 2
          none)) := by
  have hs : IsSchedule 2 (view_of sample_rows).vertex_count [(0, 0), (1, 1), (0, 2)] :=
    ⟨by decide, by decide⟩
  exact ⟨⟨rfl, rfl, fun hreach => (hreach _ hs).1 rfl⟩, rfl, rfl, fun hreach => (hreach _ hs).1 rfl⟩

end CycleEnum.OpenMP
