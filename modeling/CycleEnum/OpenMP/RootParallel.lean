import CycleEnum.OpenMP.Outcome
import CycleEnum.OpenMP.Team
import CycleEnum.Core.GraphView

namespace CycleEnum.OpenMP

section

variable {σ S : Type}

-- `count_single_thread` of the temporal counters: one worker, the roots in order.
def run_single (graph : GraphView) (construct : Except Error σ)
    (count_root : Nat → σ → Except Error σ) (result : σ → S × CycleHistogram) :
    Except Error (S × CycleHistogram) := do
  let worker ← construct
  let worker ← for_each_root graph.vertex_count (fun worker root => count_root root worker) worker
  return result worker

variable [AddCommMonoid S]

-- The loop over `local_results`.
def merge_results (threads : Nat) (results : Nat → S × CycleHistogram) :
    Except Error (S × CycleHistogram) :=
  (CycleHistogram.merge_all ((List.range threads).map fun thread => (results thread).2)).map
    fun histogram => (((List.range threads).map fun thread => (results thread).1).sum, histogram)

-- Every thread constructs its worker inside the parallel region, where the index of a root
-- is cast to a `VertexId`. The results are merged after it.
def run_team (graph : GraphView) (construct : Except Error σ)
    (count_root : Nat → σ → Except Error σ) (result : σ → S × CycleHistogram) (available : Bool)
    (requested_threads : Int) (schedule : List (Nat × Nat)) : Outcome (S × CycleHistogram) := do
  let threads ← resolve_thread_count available requested_threads
  if available && threads > 1 then
    let workers ← Outcome.parallel (construct.bind fun worker =>
      run_schedule (fun root => count_root (root % 2 ^ 32)) schedule fun _ => worker)
    Outcome.serial (merge_results threads fun thread => result (workers thread))
  else Outcome.serial (run_single graph construct count_root result)

variable {graph : GraphView} {construct : Except Error σ} {count_root : Nat → σ → Except Error σ}
  {result : σ → S × CycleHistogram} {available : Bool} {requested_threads : Int}
  {schedule : List (Nat × Nat)}

theorem run_team_one (graph : GraphView) (construct : Except Error σ)
    (count_root : Nat → σ → Except Error σ) (result : σ → S × CycleHistogram) (available : Bool)
    (schedule : List (Nat × Nat)) :
    run_team graph construct count_root result available 1 schedule =
      Outcome.serial (run_single graph construct count_root result) := by
  rw [run_team, resolve_thread_count_eq (Int.le_refl 1) (Or.inr rfl)]
  simp

theorem run_team_many (h : 1 < requested_threads) (hcount : graph.vertex_count < 2 ^ 32)
    (hs : IsSchedule requested_threads.toNat graph.vertex_count schedule) :
    run_team graph construct count_root result true requested_threads schedule =
      (Outcome.parallel (construct.bind fun worker =>
        run_schedule count_root schedule fun _ => worker)).bind fun workers =>
          Outcome.serial (merge_results requested_threads.toNat
            fun thread => result (workers thread)) := by
  rw [run_team, resolve_thread_count_eq (by omega) (Or.inl rfl)]
  rw [Outcome.returned_bind, if_pos (by simp; omega)]
  simp only [hs.run_narrow hcount]
  rfl

variable {search : Nat → S → Search S} {events : Nat → List (Nat × Nat)}
  {cost : Nat → Except Error S}

omit [AddCommMonoid S] in
theorem run_single_view (hview : ∀ root worker, (count_root root worker).map result =
      search root (result worker).1 (result worker).2) (start : σ) :
    run_single graph (.ok start) count_root result =
      for_each_root graph.vertex_count (fun stats root => search root stats) (result start).1
        (result start).2 := by
  rw [for_each_root, ← root_loop_view hview]
  change (for_each_root graph.vertex_count (fun worker root => count_root root worker)
    start).bind _ = (for_each_root graph.vertex_count (fun worker root => count_root root worker)
      start).map _
  cases for_each_root graph.vertex_count (fun worker root => count_root root worker) start with
  | error error => rfl
  | ok worker => rfl

omit [AddCommMonoid S] in
theorem run_single_eq (hcount : graph.vertex_count < 2 ^ 32)
    (hview : ∀ root worker, (count_root root worker).map result =
      search root (result worker).1 (result worker).2) (start : σ) :
    run_single graph (.ok start) count_root result =
      (List.range graph.vertex_count).foldlM (fun stats root => search root stats)
        (result start).1 (result start).2 := by
  rw [run_single_view hview, for_each_root_eq hcount]

omit [AddCommMonoid S] in
theorem run_single_endless (hcount : 2 ^ 32 ≤ graph.vertex_count) (total : S × CycleHistogram) :
    run_single graph construct count_root result ≠ .ok total := by
  intro h
  obtain ⟨worker, -, hrest⟩ := bind_ok h
  obtain ⟨last, hlast, -⟩ := bind_ok hrest
  exact for_each_root_endless' hcount _ _ _ hlast

-- Any team on any schedule returns what one thread returns, and nothing else.
theorem run_team_returned_iff (hcount : graph.vertex_count < 2 ^ 32)
    (h : Effects search events cost)
    (hview : ∀ root worker, (count_root root worker).map result =
      search root (result worker).1 (result worker).2)
    {start : σ} (hstart : result start = (0, ∅)) (hthreads : 1 ≤ requested_threads)
    (havailable : available = true ∨ requested_threads = 1)
    (hs : IsSchedule requested_threads.toNat graph.vertex_count schedule)
    (total : S × CycleHistogram) :
    run_team graph (.ok start) count_root result available requested_threads schedule =
        .returned total ↔
      run_single graph (.ok start) count_root result = .ok total := by
  by_cases hone : requested_threads = 1
  · subst hone
    rw [run_team_one]
    constructor
    · exact Outcome.serial_eq_returned
    · intro hok
      rw [hok]
      rfl
  obtain rfl : available = true := havailable.resolve_right hone
  have hsingle : run_single graph (.ok start) count_root result = _ := run_single_eq hcount hview start
  rw [hstart] at hsingle
  rw [run_team_many (by omega) hcount hs, hsingle]
  change (Outcome.parallel (run_schedule count_root schedule fun _ => start)).bind _ = _ ↔ _
  constructor
  · intro hreturned
    cases hrun : run_schedule count_root schedule fun _ => start with
    | error error =>
        rw [hrun] at hreturned
        cases hreturned
    | ok workers =>
        rw [hrun] at hreturned
        rw [team_returns h hview hstart hs hrun]
        exact Outcome.serial_eq_returned hreturned
  · intro hok
    obtain ⟨stats, histogram⟩ := total
    obtain ⟨workers, hrun, hmerge, hsum⟩ := team_exact h hview hstart hok hs
    rw [hrun]
    change Outcome.serial (merge_results _ _) = _
    rw [merge_results, hmerge, hsum]
    rfl

theorem run_team_map_iff {β : Type} (hcount : graph.vertex_count < 2 ^ 32)
    (h : Effects search events cost)
    (hview : ∀ root worker, (count_root root worker).map result =
      search root (result worker).1 (result worker).2)
    {start : σ} (hstart : result start = (0, ∅)) (hthreads : 1 ≤ requested_threads)
    (havailable : available = true ∨ requested_threads = 1)
    (hs : IsSchedule requested_threads.toNat graph.vertex_count schedule)
    (f : S × CycleHistogram → β) (last : β) :
    (run_team graph (.ok start) count_root result available requested_threads schedule).bind
        (fun total => .returned (f total)) = .returned last ↔
      (run_single graph (.ok start) count_root result).map f = .ok last := by
  have hiff := run_team_returned_iff hcount h hview hstart hthreads havailable hs
  constructor
  · intro hbind
    cases hteam : run_team graph (.ok start) count_root result available requested_threads
        schedule with
    | returned total =>
        rw [hteam] at hbind
        rw [(hiff total).mp hteam]
        exact congrArg Except.ok (Outcome.returned.inj hbind)
    | threw error =>
        rw [hteam] at hbind
        cases hbind
    | threw_runtime_error what =>
        rw [hteam] at hbind
        cases hbind
    | terminated =>
        rw [hteam] at hbind
        cases hbind
  · intro hmap
    cases hsingle : run_single graph (.ok start) count_root result with
    | error error => simp [hsingle, Except.map] at hmap
    | ok total =>
        rw [hsingle] at hmap
        rw [(hiff total).mpr hsingle]
        exact congrArg Outcome.returned (Except.ok.inj hmap)

end

end CycleEnum.OpenMP
