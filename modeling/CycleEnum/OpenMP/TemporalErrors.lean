import CycleEnum.OpenMP.TemporalJohnson
import CycleEnum.OpenMP.TemporalReadTarjan
import CycleEnum.Sequential.LateStarts
import CycleEnum.Sequential.TemporalInstances

namespace CycleEnum.OpenMP

open CycleEnum.Sequential

-- On no schedule an exception leaves the parallel region, and one of the call with
-- one thread reaches the caller with any number of them.
def ErrorsReach {α : Type} (threads items : Nat) (one : Outcome α)
    (many : List (Nat × Nat) → Outcome α) : Prop :=
  ∀ schedule, IsSchedule threads items schedule →
    many schedule ≠ .terminated ∧ ∀ error, one = .threw error → many schedule = .threw error

-- No number of temporal cycles of one length exceeds a count.
def CyclesFit (graph : GraphView) (width : Int) (cap : Option Nat) : Prop :=
  ∀ k, 2 ≤ k → (∀ limit ∈ cap, k ≤ limit) → (temporal_cycles graph width k).ncard ≤ MAX_COUNT

section Team

variable {σ S : Type} [AddCommMonoid S] {graph : GraphView} {construct : Except Error σ}
  {count_root : Nat → σ → Except Error σ} {result : σ → S × CycleHistogram}
  {requested_threads : Int} {search : Nat → S → Search S} {events : Nat → List (Nat × Nat)}
  {cost : Nat → Except Error S}

-- What one worker throws, all threads throw inside the region, or the thread that
-- takes all roots.
theorem run_team_terminates (hcount : graph.vertex_count < 2 ^ 32)
    (hthreads : 1 < requested_threads) {error : Error}
    (herror : run_single graph construct count_root result = .error error) :
    ∃ schedule, IsSchedule requested_threads.toNat graph.vertex_count schedule ∧
      run_team graph construct count_root result true requested_threads schedule = .terminated := by
  have hs := is_schedule_single (show 0 < requested_threads.toNat by omega) graph.vertex_count
  refine ⟨_, hs, ?_⟩
  rw [run_team_many hthreads hcount hs]
  cases construct with
  | error error => rfl
  | ok start =>
      change (Outcome.parallel (run_schedule count_root _ fun _ => start)).bind _ = _
      rw [run_schedule_single]
      have hfold : ((List.range graph.vertex_count).foldlM
          (fun worker root => count_root root worker) start).bind (fun worker =>
            .ok (result worker)) = .error error := by
        rw [← for_each_root_eq hcount]
        exact herror
      cases hloop : (List.range graph.vertex_count).foldlM
          (fun worker root => count_root root worker) start with
      | error other => rfl
      | ok worker =>
          rw [hloop] at hfold
          cases hfold

-- From 2^32 vertices on one thread throws or never returns, and all roots on one thread of the
-- team end the program or give a result.
theorem errors_lost_wide {β : Type} (hcount : 2 ^ 32 ≤ graph.vertex_count)
    (h : Effects search events cost)
    (hview : ∀ root worker, (count_root root worker).map result =
      search root (result worker).1 (result worker).2)
    (hstart : ∀ start, construct = .ok start → result start = (0, ∅))
    (hthreads : 1 < requested_threads) (f : S × CycleHistogram → β) :
    ¬ErrorsReach requested_threads.toNat graph.vertex_count
        ((run_team graph construct count_root result true 1 []).bind
          fun total => .returned (f total))
        (fun schedule => (run_team graph construct count_root result true requested_threads
          schedule).bind fun total => .returned (f total)) := by
  intro hreach
  have hs := is_schedule_single (show 0 < requested_threads.toNat by omega) graph.vertex_count
  obtain ⟨hends, hsame⟩ := hreach _ hs
  obtain ⟨error, herror⟩ : ∃ error, run_single graph construct count_root result = .error error := by
    cases hsingle : run_single graph construct count_root result with
    | error error => exact ⟨error, rfl⟩
    | ok total => exact absurd hsingle (run_single_endless hcount total)
  have hmany : run_team graph construct count_root result true requested_threads
      ((List.range graph.vertex_count).map fun item => (0, item)) =
      (Outcome.parallel (construct.bind fun worker =>
        run_schedule (fun root => count_root (root % 2 ^ 32))
          ((List.range graph.vertex_count).map fun item => (0, item)) fun _ => worker)).bind
        fun workers => Outcome.serial (merge_results requested_threads.toNat
          fun thread => result (workers thread)) := by
    rw [run_team, resolve_thread_count_eq (by omega) (Or.inl rfl), Outcome.returned_bind,
      if_pos (by simp; omega)]
    rfl
  have hone : (run_team graph construct count_root result true 1 []).bind
      (fun total => Outcome.returned (f total)) = .threw error := by
    rw [run_team_one, herror]
    rfl
  have hthrew := hsame error hone
  dsimp only at hends hthrew
  rw [hmany] at hends hthrew
  cases hconstruct : construct with
  | error other =>
      rw [hconstruct] at hends
      exact hends rfl
  | ok start =>
      rw [hconstruct] at hends hthrew
      dsimp only [Except.bind] at hends hthrew
      -- The same search with the root that the cast leaves.
      have heffects : Effects (fun root => search (root % 2 ^ 32)) (fun root => events (root % 2 ^ 32))
          (fun root => cost (root % 2 ^ 32)) := ⟨fun root => h.spec (root % 2 ^ 32)⟩
      have hcast := fun (root : Nat) worker => hview (root % 2 ^ 32) worker
      cases hloop : (List.range graph.vertex_count).foldlM
          (fun worker root => count_root (root % 2 ^ 32) worker) start with
      | error other =>
          refine hends ?_
          rw [run_schedule_single, hloop]
          rfl
      | ok worker =>
          have hfold := foldlM_view hcast (List.range graph.vertex_count) start
          rw [hloop, hstart start hconstruct] at hfold
          obtain ⟨workers, hrun, hmerge, -⟩ := team_exact heffects hcast (hstart start hconstruct)
            hfold.symm hs
          rw [hrun] at hthrew
          change (Outcome.serial (merge_results _ _)).bind _ = _ at hthrew
          rw [merge_results, hmerge] at hthrew
          cases hthrew

theorem errors_reach_iff {β : Type} (hcount : graph.vertex_count < 2 ^ 32) (h : Effects search events cost)
    (hview : ∀ root worker, (count_root root worker).map result =
      search root (result worker).1 (result worker).2)
    (hstart : ∀ start, construct = .ok start → result start = (0, ∅))
    (hthreads : 1 < requested_threads) (f : S × CycleHistogram → β) :
    ErrorsReach requested_threads.toNat graph.vertex_count
        ((run_team graph construct count_root result true 1 []).bind
          fun total => .returned (f total))
        (fun schedule => (run_team graph construct count_root result true requested_threads
          schedule).bind fun total => .returned (f total)) ↔
      ∃ total, run_single graph construct count_root result = .ok total := by
  constructor
  · intro hreach
    cases hsingle : run_single graph construct count_root result with
    | ok total => exact ⟨total, rfl⟩
    | error error =>
        obtain ⟨schedule, hs, hterminated⟩ := run_team_terminates hcount hthreads hsingle
        have hno := (hreach schedule hs).1
        dsimp only at hno
        rw [hterminated] at hno
        exact absurd rfl hno
  · intro hex schedule hs
    obtain ⟨total, hsingle⟩ := hex
    obtain ⟨start, rfl⟩ : ∃ start, construct = .ok start := by
      cases construct with
      | error error => cases hsingle
      | ok start => exact ⟨start, rfl⟩
    have hmany := (run_team_returned_iff hcount h hview (hstart start rfl) (by omega) (Or.inl rfl) hs
      total).mpr hsingle
    have hone : run_team graph (.ok start) count_root result true 1 [] = .returned total := by
      rw [run_team_one, hsingle]
      rfl
    dsimp only
    rw [hmany, hone]
    refine ⟨fun hc => ?_, fun error hc => ?_⟩
    · cases hc
    · cases hc

end Team

variable {graph : GraphView} {cap : Option Nat} {width : Int} {requested_threads : Int}

theorem cycles_fit_iff (hw : graph.WellFormed) (h0 : 0 ≤ width) (hcap : ∀ limit ∈ cap, 2 ≤ limit) :
    (∃ histogram, (∅ : CycleHistogram).record (temporal_events graph width cap) = .ok histogram) ↔
      CyclesFit graph width cap :=
  CycleHistogram.record_ok_iff (temporal_events_two_le hw)
    (fun _ hk hle => temporal_tally_eq hw h0 hcap hk hle)
    (fun _ _ hle => temporal_tally_beyond hw h0 hcap hle)

-- The checks of both constructors.
theorem constructor_checks_fail {α : Type} (start : α)
    (h : ¬(0 ≤ width ∧ ∀ limit ∈ cap, 2 ≤ limit)) :
    ∃ error, ((validate_max_cycle_length cap).bind fun _ =>
      (checked_window_end 0 width).bind fun _ => .ok start) = .error error := by
  by_cases hcap : ∀ limit ∈ cap, 2 ≤ limit
  · have hneg : width < 0 := by
      by_contra h0
      exact h ⟨by omega, hcap⟩
    rw [validate_max_cycle_length_ok hcap, checked_window_end, if_pos hneg]
    exact ⟨_, rfl⟩
  · obtain ⟨limit, rfl, hlt⟩ : ∃ limit, cap = some limit ∧ limit < 2 := by
      cases cap with
      | none => simp at hcap
      | some limit => exact ⟨limit, rfl, by simpa using hcap⟩
    rw [validate_max_cycle_length, if_pos (by simpa using hlt)]
    exact ⟨_, rfl⟩

theorem run_single_fails {σ S : Type} {construct : Except Error σ}
    {count_root : Nat → σ → Except Error σ} {result : σ → S × CycleHistogram} {error : Error}
    (h : construct = .error error) :
    ¬∃ total, run_single graph construct count_root result = .ok total := by
  rw [h]
  intro hex
  obtain ⟨total, htotal⟩ := hex
  cases htotal

theorem map_ok_iff {α β : Type} (result : Except Error α) (f : α → β) :
    (∃ b, result.map f = .ok b) ↔ ∃ a, result = .ok a := by
  cases result with
  | error error => simp [Except.map]
  | ok a => simp [Except.map]

theorem errors_reach_johnson_iff (hw : graph.WellFormed) (hmax : width ≤ MAX_TIMESTAMP)
    (hthreads : 1 < requested_threads) :
    ErrorsReach requested_threads.toNat graph.vertex_count
        (TemporalJohnson.count_temporal_cycles_johnson graph width true 1 cap [])
        (TemporalJohnson.count_temporal_cycles_johnson graph width true requested_threads cap) ↔
      (0 ≤ width ∧ ∀ limit ∈ cap, 2 ≤ limit) ∧
        TemporalJohnsonSearch.PathsFit graph width cap ∧ CyclesFit graph width cap := by
  obtain ⟨events, cost, heffects⟩ := TemporalJohnson.root_search_effects graph width cap
  rw [funext (TemporalJohnson.count_temporal_cycles_johnson_eq graph width true requested_threads cap),
    TemporalJohnson.count_temporal_cycles_johnson_eq, errors_reach_iff hw.counted heffects
      TemporalJohnson.count_root_view (fun _ hs => TemporalJohnson.construct_outcome hs) hthreads]
  by_cases hargs : 0 ≤ width ∧ ∀ limit ∈ cap, 2 ≤ limit
  · obtain ⟨h0, hcap⟩ := hargs
    have hsingle : (∃ total, run_single graph
        (TemporalJohnson.TemporalJohnsonWorker.construct width cap)
        (TemporalJohnson.TemporalJohnsonWorker.count_root graph width cap)
        TemporalJohnson.TemporalJohnsonWorker.outcome = .ok total) ↔
        ∃ histogram, count_temporal_cycles_johnson graph width cap = .ok histogram := by
      have hmap : count_temporal_cycles_johnson graph width cap =
          (count_temporal_cycles_johnson_with_stats graph width cap).map (·.histogram) := rfl
      rw [hmap, ← TemporalJohnson.count_single_thread_eq h0 hmax hcap, map_ok_iff,
        TemporalJohnson.count_single_thread, map_ok_iff]
    rw [hsingle, and_iff_right ⟨h0, hcap⟩, ← cycles_fit_iff hw h0 hcap,
      count_temporal_cycles_johnson_ok_iff hw h0 hmax hcap]
  · obtain ⟨error, herror⟩ := constructor_checks_fail
      (⟨⟨∅, ⟨0, 0, 0⟩⟩, ⟨⟨Flags.none, []⟩, ClosingTimes.none⟩⟩ :
        TemporalJohnson.TemporalJohnsonWorker) hargs
    exact iff_of_false (run_single_fails herror) fun hall => hargs hall.1

theorem errors_reach_read_tarjan_iff (hw : graph.WellFormed) (hmax : width ≤ MAX_TIMESTAMP)
    (hthreads : 1 < requested_threads) :
    ErrorsReach requested_threads.toNat graph.vertex_count
        (TemporalReadTarjan.count_temporal_cycles_read_tarjan graph width true 1 cap [])
        (TemporalReadTarjan.count_temporal_cycles_read_tarjan graph width true requested_threads
          cap) ↔
      (0 ≤ width ∧ ∀ limit ∈ cap, 2 ≤ limit) ∧
        NoWindowOverflow graph width ∧ CyclesFit graph width cap := by
  obtain ⟨events, cost, heffects⟩ := TemporalReadTarjan.root_search_effects graph width cap
  rw [funext (TemporalReadTarjan.count_temporal_cycles_read_tarjan_eq graph width true
      requested_threads cap), TemporalReadTarjan.count_temporal_cycles_read_tarjan_eq,
    errors_reach_iff hw.counted heffects TemporalReadTarjan.count_root_view
      (fun _ hs => TemporalReadTarjan.construct_outcome hs) hthreads]
  by_cases hargs : 0 ≤ width ∧ ∀ limit ∈ cap, 2 ≤ limit
  · obtain ⟨h0, hcap⟩ := hargs
    have hsingle : (∃ total, run_single graph
        (TemporalReadTarjan.TemporalReadTarjanWorker.construct width cap)
        (TemporalReadTarjan.TemporalReadTarjanWorker.count_root graph width cap)
        TemporalReadTarjan.TemporalReadTarjanWorker.outcome = .ok total) ↔
        ∃ histogram, count_temporal_cycles_read_tarjan graph width cap = .ok histogram := by
      rw [← TemporalReadTarjan.count_single_thread_histogram h0 hmax hcap, map_ok_iff,
        TemporalReadTarjan.count_single_thread, map_ok_iff]
    rw [hsingle, and_iff_right ⟨h0, hcap⟩, ← cycles_fit_iff hw h0 hcap]
    by_cases hno : NoWindowOverflow graph width
    · rw [count_temporal_cycles_read_tarjan_eq hw h0 hmax hno hcap, and_iff_right hno]
    · obtain ⟨what, hwhat⟩ :=
        count_temporal_cycles_read_tarjan_overflows (.of_well_formed hw) h0 hno hcap hmax
      rw [hwhat]
      exact iff_of_false (by simp) fun hall => hno hall.1
  · obtain ⟨error, herror⟩ := constructor_checks_fail
      (⟨⟨∅, ⟨0, 0, 0⟩⟩, ⟨⟨Flags.none, []⟩, ClosingTimes.none⟩⟩ :
        TemporalReadTarjan.TemporalReadTarjanWorker) hargs
    exact iff_of_false (run_single_fails herror) fun hall => hargs hall.1

theorem errors_lost_johnson (hcount : 2 ^ 32 ≤ graph.vertex_count)
    (hthreads : 1 < requested_threads) :
    ¬ErrorsReach requested_threads.toNat graph.vertex_count
        (TemporalJohnson.count_temporal_cycles_johnson graph width true 1 cap [])
        (TemporalJohnson.count_temporal_cycles_johnson graph width true requested_threads cap) := by
  obtain ⟨events, cost, heffects⟩ := TemporalJohnson.root_search_effects graph width cap
  rw [funext (TemporalJohnson.count_temporal_cycles_johnson_eq graph width true requested_threads cap),
    TemporalJohnson.count_temporal_cycles_johnson_eq]
  exact errors_lost_wide hcount heffects TemporalJohnson.count_root_view
    (fun _ hs => TemporalJohnson.construct_outcome hs) hthreads _

theorem errors_lost_read_tarjan (hcount : 2 ^ 32 ≤ graph.vertex_count)
    (hthreads : 1 < requested_threads) :
    ¬ErrorsReach requested_threads.toNat graph.vertex_count
        (TemporalReadTarjan.count_temporal_cycles_read_tarjan graph width true 1 cap [])
        (TemporalReadTarjan.count_temporal_cycles_read_tarjan graph width true requested_threads
          cap) := by
  obtain ⟨events, cost, heffects⟩ := TemporalReadTarjan.root_search_effects graph width cap
  rw [funext (TemporalReadTarjan.count_temporal_cycles_read_tarjan_eq graph width true
      requested_threads cap), TemporalReadTarjan.count_temporal_cycles_read_tarjan_eq]
  exact errors_lost_wide hcount heffects TemporalReadTarjan.count_root_view
    (fun _ hs => TemporalReadTarjan.construct_outcome hs) hthreads _

end CycleEnum.OpenMP
