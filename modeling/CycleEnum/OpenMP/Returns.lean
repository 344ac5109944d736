import CycleEnum.OpenMP.Static
import CycleEnum.OpenMP.TemporalJohnson
import CycleEnum.OpenMP.TemporalReadTarjan
import CycleEnum.Sequential.Results

namespace CycleEnum.OpenMP

open CycleEnum.Enumeration CycleEnum.Sequential

namespace Outcome

variable {α β : Type} {team : Prop}

-- What a call may end in besides a value: an exception of the library, or where there is a
-- team the end of the program.
def Ends (team : Prop) : Outcome α → Prop
  | threw error => error.IsException
  | terminated => team
  | _ => True

theorem Ends.bind {first : Outcome α} {next : α → Outcome β} (h : first.Ends team)
    (h' : ∀ value, first = .returned value → (next value).Ends team) : (first >>= next).Ends team := by
  cases first with
  | returned value => exact h' value rfl
  | threw error => exact h
  | threw_runtime_error what => trivial
  | terminated => exact h

theorem bind_returned {first : Outcome α} {next : α → Outcome β} {last : β}
    (h : (first >>= next) = .returned last) :
    ∃ value, first = .returned value ∧ next value = .returned last := by
  cases first with
  | returned value => exact ⟨value, rfl, h⟩
  | threw error => cases h
  | threw_runtime_error what => cases h
  | terminated => cases h

theorem ends_serial {result : Except Error α} (h : Throws (fun _ => True) result) :
    (serial result).Ends team := by
  cases result with
  | ok value => trivial
  | error error => exact h

theorem ends_parallel {result : Except Error α} (h : team) : (parallel result).Ends team := by
  cases result with
  | ok value => trivial
  | error error => exact h

end Outcome

variable {graph : GraphView} {cap : Option Nat} {width : Int} {available : Bool}
  {requested_threads : Int} {schedule : List (Nat × Nat)} {histogram : CycleHistogram}

theorem resolve_thread_count_ends (team : Prop) (available : Bool) (requested_threads : Int) :
    (resolve_thread_count available requested_threads).Ends team := by
  unfold resolve_thread_count
  split_ifs <;> trivial

-- Whoever gets threads has asked for some that there are.
theorem resolve_thread_count_returned {threads : Nat}
    (h : resolve_thread_count available requested_threads = .returned threads) :
    threads = requested_threads.toNat ∧ 1 ≤ requested_threads ∧
      (available = true ∨ requested_threads = 1) := by
  unfold resolve_thread_count at h
  split_ifs at h with hfew hnone
  refine ⟨(Outcome.returned.inj h).symm, by omega, ?_⟩
  cases available with
  | true => exact Or.inl rfl
  | false =>
      simp only [Bool.not_false, Bool.true_and, decide_eq_true_eq] at hnone
      omega

theorem count_simple_cycles_team
    (h : count_simple_cycles graph available requested_threads cap schedule = .returned histogram) :
    1 ≤ requested_threads ∧ (available = true ∨ requested_threads = 1) := by
  obtain ⟨_, -, h⟩ := Outcome.bind_returned h
  obtain ⟨threads, hthreads, -⟩ := Outcome.bind_returned h
  exact (resolve_thread_count_returned hthreads).2

theorem count_simple_cycles_ends (hw : graph.WellFormed) (hcap : ∀ limit ∈ cap, 2 ≤ limit) :
    (count_simple_cycles graph available requested_threads cap schedule).Ends
      (1 < requested_threads) := by
  have hsingle : Throws (fun _ => True) (count_single_thread graph cap) := by
    rw [count_single_thread_eq hw hcap, count_simple_cycles_bruteforce_eq hw hcap]
    exact (CycleHistogram.record_throws _).weaken (fun _ _ => trivial) fun _ => id
  unfold count_simple_cycles
  rw [validate_max_cycle_length_ok hcap]
  refine (resolve_thread_count_ends _ _ _).bind fun threads hthreads => ?_
  obtain rfl := (resolve_thread_count_returned hthreads).1
  split_ifs with hmany
  · have hteam : 1 < requested_threads := by
      simp only [Bool.and_eq_true, decide_eq_true_eq] at hmany
      omega
    exact (Outcome.ends_parallel hteam).bind fun _ _ =>
      Outcome.ends_serial (CycleHistogram.merge_all_throws _)
  · exact Outcome.ends_serial hsingle

-- What a team returns is what one thread returns.
theorem count_simple_cycles_returned (hw : graph.WellFormed) (hcap : ∀ limit ∈ cap, 2 ≤ limit)
    (hs : 1 < requested_threads → IsSchedule requested_threads.toNat graph.vertex_count schedule)
    (h : count_simple_cycles graph available requested_threads cap schedule = .returned histogram) :
    count_simple_cycles_bruteforce graph cap = .ok histogram := by
  obtain ⟨hthreads, havailable⟩ := count_simple_cycles_team h
  rw [count_simple_cycles, validate_max_cycle_length_ok hcap,
    resolve_thread_count_eq hthreads havailable] at h
  simp only [Outcome.serial_ok, Outcome.returned_bind] at h
  by_cases hone : requested_threads = 1
  · rw [if_neg (by simp [hone]), count_single_thread_eq hw hcap] at h
    exact Outcome.serial_eq_returned h
  obtain rfl : available = true := havailable.resolve_right hone
  rw [if_pos (by simp; omega), (hs (by omega)).run_narrow hw.counted] at h
  obtain ⟨events, result, heffects⟩ := root_search_effects graph cap
  cases hrun : run_schedule (count_root graph cap) schedule fun _ => StaticWorker.initial with
  | error error =>
      rw [hrun] at h
      cases h
  | ok workers =>
      rw [hrun] at h
      have hstart : (fun worker : StaticWorker => ((), worker.histogram)) StaticWorker.initial =
          (0, ∅) := rfl
      have hteam := team_returns heffects count_root_view hstart (hs (by omega)) hrun
      rw [root_searches_eq hw hcap, Outcome.serial_eq_returned h] at hteam
      cases hseq : count_simple_cycles_bruteforce graph cap with
      | error error =>
          rw [hseq] at hteam
          cases hteam
      | ok found =>
          rw [hseq] at hteam
          exact congrArg Except.ok (Prod.mk.inj (Except.ok.inj hteam)).2

theorem count_simple_cycles_returned_iff (hw : graph.WellFormed) (hcap : ∀ limit ∈ cap, 2 ≤ limit)
    (hs : 1 < requested_threads → IsSchedule requested_threads.toNat graph.vertex_count schedule)
    (hthreads : 1 ≤ requested_threads) (havailable : available = true ∨ requested_threads = 1) :
    count_simple_cycles graph available requested_threads cap schedule = .returned histogram ↔
      count_simple_cycles_bruteforce graph cap = .ok histogram := by
  refine ⟨count_simple_cycles_returned hw hcap hs, fun hseq => ?_⟩
  by_cases hone : requested_threads = 1
  · subst hone
    rw [count_simple_cycles, validate_max_cycle_length_ok hcap,
      resolve_thread_count_eq hthreads havailable]
    simp only [Outcome.serial_ok, Outcome.returned_bind]
    rw [if_neg (by simp), count_single_thread_eq hw hcap, hseq]
    rfl
  · exact count_simple_cycles_eq hw hcap hseq hthreads havailable (hs (by omega))

theorem run_team_team {σ S β : Type} [AddCommMonoid S] {construct : Except Error σ}
    {count_root : Nat → σ → Except Error σ} {result : σ → S × CycleHistogram}
    {f : S × CycleHistogram → β} {last : β}
    (h : (run_team graph construct count_root result available requested_threads schedule).bind
      (fun total => .returned (f total)) = .returned last) :
    1 ≤ requested_threads ∧ (available = true ∨ requested_threads = 1) := by
  obtain ⟨_, h, -⟩ := Outcome.bind_returned h
  obtain ⟨threads, hthreads, -⟩ := Outcome.bind_returned h
  exact (resolve_thread_count_returned hthreads).2

theorem run_team_ends {σ S : Type} [AddCommMonoid S] {construct : Except Error σ}
    {count_root : Nat → σ → Except Error σ} {result : σ → S × CycleHistogram}
    (hsingle : Throws (fun _ => True) (run_single graph construct count_root result)) :
    (run_team graph construct count_root result available requested_threads schedule).Ends
      (1 < requested_threads) := by
  unfold run_team
  refine (resolve_thread_count_ends _ _ _).bind fun threads hthreads => ?_
  obtain rfl := (resolve_thread_count_returned hthreads).1
  split_ifs with hmany
  · have hteam : 1 < requested_threads := by
      simp only [Bool.and_eq_true, decide_eq_true_eq] at hmany
      omega
    refine (Outcome.ends_parallel hteam).bind fun _ _ => Outcome.ends_serial ?_
    exact (CycleHistogram.merge_all_throws _).map fun _ _ => trivial
  · exact Outcome.ends_serial hsingle

section Temporal

variable (h0 : 0 ≤ width) (hmax : width ≤ MAX_TIMESTAMP) (hcap : ∀ limit ∈ cap, 2 ≤ limit)
  (hs : 1 < requested_threads → IsSchedule requested_threads.toNat graph.vertex_count schedule)

section Team

variable {σ S : Type} [AddCommMonoid S] {count_root : Nat → σ → Except Error σ}
  {result : σ → S × CycleHistogram} {search : Nat → S → Search S} {events : Nat → List (Nat × Nat)}
  {cost : Nat → Except Error S}

include hs

-- One thread takes no schedule.
theorem run_team_histogram_iff (hcount : graph.vertex_count < 2 ^ 32)
    (hthreads : 1 ≤ requested_threads) (havailable : available = true ∨ requested_threads = 1)
    (h : Effects search events cost)
    (hview : ∀ root worker, (count_root root worker).map result =
      search root (result worker).1 (result worker).2) {start : σ} (hstart : result start = (0, ∅)) :
    (run_team graph (.ok start) count_root result available requested_threads schedule).bind
        (fun total => .returned total.2) = .returned histogram ↔
      (run_single graph (.ok start) count_root result).map (·.2) = .ok histogram := by
  by_cases hone : requested_threads = 1
  · subst hone
    rw [run_team_one, Outcome.serial_map, Outcome.serial_eq_returned_iff]
  · exact run_team_map_iff hcount h hview hstart hthreads havailable (hs (by omega)) _ histogram

end Team

section Single

include h0 hmax hcap

theorem johnson_run_single : Sequential.count_temporal_cycles_johnson graph width cap =
    (run_single graph (TemporalJohnson.TemporalJohnsonWorker.construct width cap)
      (TemporalJohnson.TemporalJohnsonWorker.count_root graph width cap)
      TemporalJohnson.TemporalJohnsonWorker.outcome).map (·.2) := by
  change (count_temporal_cycles_johnson_with_stats graph width cap).map (·.histogram) = _
  rw [← TemporalJohnson.count_single_thread_eq h0 hmax hcap, TemporalJohnson.count_single_thread]
  cases run_single graph (TemporalJohnson.TemporalJohnsonWorker.construct width cap)
      (TemporalJohnson.TemporalJohnsonWorker.count_root graph width cap)
      TemporalJohnson.TemporalJohnsonWorker.outcome with
  | error error => rfl
  | ok total => rfl

theorem read_tarjan_run_single : Sequential.count_temporal_cycles_read_tarjan graph width cap =
    (run_single graph (TemporalReadTarjan.TemporalReadTarjanWorker.construct width cap)
      (TemporalReadTarjan.TemporalReadTarjanWorker.count_root graph width cap)
      TemporalReadTarjan.TemporalReadTarjanWorker.outcome).map (·.2) := by
  rw [← TemporalReadTarjan.count_single_thread_histogram h0 hmax hcap,
    TemporalReadTarjan.count_single_thread]
  cases run_single graph (TemporalReadTarjan.TemporalReadTarjanWorker.construct width cap)
      (TemporalReadTarjan.TemporalReadTarjanWorker.count_root graph width cap)
      TemporalReadTarjan.TemporalReadTarjanWorker.outcome with
  | error error => rfl
  | ok total => rfl

variable (hw : graph.WellFormed)

include hw

theorem count_temporal_cycles_johnson_ends :
    (TemporalJohnson.count_temporal_cycles_johnson graph width available requested_threads cap
      schedule).Ends (1 < requested_threads) := by
  have hsingle := count_temporal_cycles_johnson_throws hw h0 hcap hmax
  rw [johnson_run_single h0 hmax hcap] at hsingle
  rw [TemporalJohnson.count_temporal_cycles_johnson_eq]
  exact (run_team_ends (hsingle.weaken (fun _ _ => trivial) fun _ => id).of_map).bind
    fun _ _ => trivial

theorem count_temporal_cycles_read_tarjan_ends :
    (TemporalReadTarjan.count_temporal_cycles_read_tarjan graph width available requested_threads cap
      schedule).Ends (1 < requested_threads) := by
  have hsingle := (count_temporal_cycles_read_tarjan_records hw h0 hcap hmax).throws
  rw [read_tarjan_run_single h0 hmax hcap] at hsingle
  rw [TemporalReadTarjan.count_temporal_cycles_read_tarjan_eq]
  exact (run_team_ends (hsingle.weaken (fun _ _ => trivial) fun _ => id).of_map).bind
    fun _ _ => trivial

end Single

include h0 hmax hcap hs

-- A team that there can be returns what one thread returns, and nothing else.
theorem count_temporal_cycles_johnson_returned_iff (hcount : graph.vertex_count < 2 ^ 32)
    (hthreads : 1 ≤ requested_threads) (havailable : available = true ∨ requested_threads = 1) :
    TemporalJohnson.count_temporal_cycles_johnson graph width available requested_threads cap
        schedule = .returned histogram ↔
      Sequential.count_temporal_cycles_johnson graph width cap = .ok histogram := by
  obtain ⟨events, cost, heffects⟩ := TemporalJohnson.root_search_effects graph width cap
  rw [TemporalJohnson.count_temporal_cycles_johnson_eq, johnson_run_single h0 hmax hcap,
    TemporalJohnson.construct_ok h0 hmax hcap]
  exact run_team_histogram_iff hs hcount hthreads havailable heffects TemporalJohnson.count_root_view rfl

theorem count_temporal_cycles_johnson_returned (hcount : graph.vertex_count < 2 ^ 32)
    (h : TemporalJohnson.count_temporal_cycles_johnson graph width available requested_threads cap
      schedule = .returned histogram) :
    Sequential.count_temporal_cycles_johnson graph width cap = .ok histogram := by
  have hteam := h
  rw [TemporalJohnson.count_temporal_cycles_johnson_eq] at hteam
  obtain ⟨hthreads, havailable⟩ := run_team_team hteam
  exact (count_temporal_cycles_johnson_returned_iff h0 hmax hcap hs hcount hthreads havailable).mp h

theorem count_temporal_cycles_read_tarjan_returned_iff (hcount : graph.vertex_count < 2 ^ 32)
    (hthreads : 1 ≤ requested_threads) (havailable : available = true ∨ requested_threads = 1) :
    TemporalReadTarjan.count_temporal_cycles_read_tarjan graph width available requested_threads cap
        schedule = .returned histogram ↔
      Sequential.count_temporal_cycles_read_tarjan graph width cap = .ok histogram := by
  obtain ⟨events, cost, heffects⟩ := TemporalReadTarjan.root_search_effects graph width cap
  rw [TemporalReadTarjan.count_temporal_cycles_read_tarjan_eq, read_tarjan_run_single h0 hmax hcap,
    TemporalReadTarjan.construct_ok h0 hmax hcap]
  exact run_team_histogram_iff hs hcount hthreads havailable heffects TemporalReadTarjan.count_root_view rfl

theorem count_temporal_cycles_read_tarjan_returned (hcount : graph.vertex_count < 2 ^ 32)
    (h : TemporalReadTarjan.count_temporal_cycles_read_tarjan graph width available requested_threads
      cap schedule = .returned histogram) :
    Sequential.count_temporal_cycles_read_tarjan graph width cap = .ok histogram := by
  have hteam := h
  rw [TemporalReadTarjan.count_temporal_cycles_read_tarjan_eq] at hteam
  obtain ⟨hthreads, havailable⟩ := run_team_team hteam
  exact (count_temporal_cycles_read_tarjan_returned_iff h0 hmax hcap hs hcount hthreads havailable).mp h

end Temporal

end CycleEnum.OpenMP
