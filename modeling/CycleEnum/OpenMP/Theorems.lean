import CycleEnum.OpenMP.TaskPool
import CycleEnum.Sequential.Theorems

namespace CycleEnum.OpenMP

open CycleEnum.Sequential (Parsed sample_fits sample_parsed sample_rows simple_cycles
  static_record_ok_iff view_of wide_view wide_view_numbers wide_view_parsed wide_view_vertex_count)

variable {graph : GraphView} {cap : Option Nat} {available : Bool} {requested_threads : Int}

-- Whatever root falls to whatever thread, and in which order, the merged counts are
-- those of the sequential search by brute force.
theorem count_simple_cycles_schedule_independent (hg : Parsed graph)
    (hcap : ∀ limit ∈ cap, 2 ≤ limit)
    (hfit : CycleHistogram.NumbersFit cap fun k => (simple_cycles graph k).ncard)
    (hthreads : 1 ≤ requested_threads) (havailable : available = true ∨ requested_threads = 1)
    {schedule : List (Nat × Nat)}
    (hs : IsSchedule requested_threads.toNat graph.vertex_count schedule) :
    (∃ histogram,
      Sequential.count_simple_cycles_bruteforce graph cap = .ok histogram ∧
      count_simple_cycles_johnson graph available requested_threads cap schedule =
        .returned histogram ∧
      count_simple_cycles_read_tarjan graph available requested_threads cap schedule =
        .returned histogram) ↔
    graph.vertex_count < 2 ^ 32 := by
  constructor
  · rintro ⟨histogram, hseq, -⟩
    by_contra hcount
    exact Sequential.count_simple_cycles_bruteforce_endless (Nat.le_of_not_lt hcount) histogram hseq
  · intro hids
    have hw := hg.well_formed hids
    obtain ⟨histogram, hseq⟩ := (static_record_ok_iff hw).mpr hfit
    rw [← Sequential.count_simple_cycles_bruteforce_eq hw hcap] at hseq
    exact ⟨histogram, hseq, count_simple_cycles_eq hw hcap hseq hthreads havailable hs,
      count_simple_cycles_eq hw hcap hseq hthreads havailable hs⟩

-- Two threads, of which the second takes the roots 2 and 0, the first the root 1.
theorem count_simple_cycles_schedule_independent_sample :
    ∃ histogram,
      Sequential.count_simple_cycles_bruteforce (view_of sample_rows) none = .ok histogram ∧
      count_simple_cycles_johnson (view_of sample_rows) true 2 none [(1, 2), (0, 1), (1, 0)] =
        .returned histogram ∧
      count_simple_cycles_read_tarjan (view_of sample_rows) true 2 none [(1, 2), (0, 1), (1, 0)] =
        .returned histogram :=
  (count_simple_cycles_schedule_independent sample_parsed (by simp) (sample_fits _)
    (show (1 : Int) ≤ 2 by decide) (Or.inl rfl) ⟨by decide, by decide⟩).mpr (by decide)

-- The search by brute force does not come to an end, so there is nothing to agree with.
theorem count_simple_cycles_wide :
    Parsed wide_view ∧ (∀ k, 2 ≤ k → (simple_cycles wide_view k).ncard = 0) ∧
      ∃ schedule, IsSchedule 2 wide_view.vertex_count schedule ∧
        ¬∃ histogram, Sequential.count_simple_cycles_bruteforce wide_view none = .ok histogram ∧
          count_simple_cycles_johnson wide_view true 2 none schedule = .returned histogram ∧
          count_simple_cycles_read_tarjan wide_view true 2 none schedule = .returned histogram := by
  refine ⟨wide_view_parsed, fun _ hk => wide_view_numbers hk, _, is_schedule_single (by decide) _, ?_⟩
  rintro ⟨histogram, hseq, -⟩
  exact Sequential.count_simple_cycles_bruteforce_endless wide_view_vertex_count.ge histogram hseq

section Tasks

open Tasks

-- A run of the tasks is any sequence of possible moves: the next root is spawned, or
-- some thread takes some task one step further.
theorem count_simple_cycles_read_tarjan_tasks_schedule_independent (hg : Parsed graph)
    (hcap : ∀ limit ∈ cap, 2 ≤ limit) {cutoff : Nat} (hcutoff : 1 ≤ cutoff)
    (hthreads : 1 ≤ requested_threads) (havailable : available = true ∨ requested_threads = 1)
    {moves : List Move}
    (hrun : IsRun graph cap cutoff requested_threads.toNat moves (Pool.initial graph)) :
    (graph.vertex_count < 2 ^ 32 →
      (∀ histogram, Sequential.count_simple_cycles_read_tarjan graph cap = .ok histogram →
        ∃ pool, run_moves graph cap cutoff moves (Pool.initial graph) = .ok pool) ∧
      ∀ pool, run_moves graph cap cutoff moves (Pool.initial graph) = .ok pool →
        (pool.Finished →
          count_simple_cycles_read_tarjan_tasks graph available requested_threads cap cutoff moves =
            Outcome.serial (Sequential.count_simple_cycles_read_tarjan graph cap)) ∧
        (¬pool.Finished → ∃ move : Move, move.Enabled requested_threads.toNat pool) ∧
        moves.length ≤ (Pool.initial graph).work graph ∧
        (∃ found, pool.Splits graph cap requested_threads.toNat found) ∧
        ∀ thread index next, step graph cap cutoff pool (.advance thread index) = .ok next →
          (∀ other, other ≠ thread → next.locals other = pool.locals other) ∧
            next.roots = pool.roots ∧ ∃ own, next.tasks = pool.tasks.eraseIdx index ++ own) ∧
    (2 ^ 32 ≤ graph.vertex_count →
      (∀ histogram, Sequential.count_simple_cycles_read_tarjan graph cap ≠ .ok histogram) ∧
      ∀ pool, run_moves graph cap cutoff moves (Pool.initial graph) = .ok pool →
        ¬pool.Finished) := by
  refine ⟨fun hids => ?_, fun hwide => ⟨Sequential.count_simple_cycles_read_tarjan_endless hwide,
    fun pool hpool hdone => run_moves_endless hwide (initial_endless hwide) hpool hdone.1⟩⟩
  have hw := hg.well_formed hids
  have hinitial := splits_initial hids cap requested_threads.toNat
  constructor
  · intro histogram hseq
    rw [Sequential.count_simple_cycles_read_tarjan_eq hw hcap] at hseq
    exact hinitial.run_exists hw hseq hrun
  · intro pool hpool
    obtain ⟨found, hsplits, hwork⟩ := hinitial.run hw hrun hpool
    refine ⟨fun hdone => ?_, fun hdone => exists_enabled (by omega) hdone, by omega,
      ⟨found, hsplits⟩, fun thread index next hnext => step_frame hnext⟩
    exact count_simple_cycles_read_tarjan_tasks_eq hw hcap hcutoff hthreads havailable hpool hsplits
      hdone

-- Each root is one task, and the second thread begins with the second one.
theorem count_simple_cycles_read_tarjan_tasks_schedule_independent_sample :
    count_simple_cycles_read_tarjan_tasks (view_of sample_rows) true 2 none 1
        [.spawn, .spawn, .advance 1 1, .spawn, .advance 0 0, .advance 1 0] =
      Outcome.serial (Sequential.count_simple_cycles_read_tarjan (view_of sample_rows) none) := by
  have hrun : IsRun (view_of sample_rows) none 1 2
      [.spawn, .spawn, .advance 1 1, .spawn, .advance 0 0, .advance 1 0]
      (Pool.initial (view_of sample_rows)) := by
    refine ⟨List.cons_ne_nil _ _, fun a ha => ?_⟩
    obtain rfl := Except.ok.inj ha
    refine ⟨List.cons_ne_nil _ _, fun b hb => ?_⟩
    obtain rfl := Except.ok.inj hb
    refine ⟨⟨by decide, by decide⟩, fun c hc => ?_⟩
    obtain rfl := Except.ok.inj hc
    refine ⟨List.cons_ne_nil _ _, fun d hd => ?_⟩
    obtain rfl := Except.ok.inj hd
    refine ⟨⟨by decide, Nat.zero_lt_succ _⟩, fun e he => ?_⟩
    obtain rfl := Except.ok.inj he
    exact ⟨⟨by decide, Nat.zero_lt_succ _⟩, fun _ _ => trivial⟩
  obtain ⟨pool, hpool, hdone⟩ : ∃ pool, run_moves (view_of sample_rows) none 1
      [.spawn, .spawn, .advance 1 1, .spawn, .advance 0 0, .advance 1 0]
      (Pool.initial (view_of sample_rows)) = .ok pool ∧ pool.Finished := ⟨_, rfl, rfl, rfl⟩
  exact (((count_simple_cycles_read_tarjan_tasks_schedule_independent sample_parsed (by simp)
    (Nat.le_refl 1) (show (1 : Int) ≤ 2 by decide) (Or.inl rfl) hrun).1 (by decide)).2 pool hpool).1 hdone

-- No run spawns the last of the roots.
theorem count_simple_cycles_read_tarjan_tasks_wide :
    Parsed wide_view ∧ (∀ k, 2 ≤ k → (simple_cycles wide_view k).ncard = 0) ∧
      (∀ histogram, Sequential.count_simple_cycles_read_tarjan wide_view none ≠ .ok histogram) ∧
      ∀ moves pool, run_moves wide_view none 1 moves (Pool.initial wide_view) = .ok pool →
        ¬pool.Finished :=
  ⟨wide_view_parsed, fun _ hk => wide_view_numbers hk,
    Sequential.count_simple_cycles_read_tarjan_endless wide_view_vertex_count.ge,
    fun _ _ hpool hdone => run_moves_endless wide_view_vertex_count.ge
      (initial_endless wide_view_vertex_count.ge) hpool hdone.1⟩

end Tasks

end CycleEnum.OpenMP
