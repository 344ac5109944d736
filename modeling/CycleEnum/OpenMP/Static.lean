import CycleEnum.OpenMP.Outcome
import CycleEnum.OpenMP.Team
import CycleEnum.Sequential.BruteforceClosings
import Mathlib.Algebra.Order.PUnit

namespace CycleEnum.OpenMP

open CycleEnum.Enumeration CycleEnum.Sequential

-- The buffers of one thread.
structure StaticWorker where
  histogram : CycleHistogram
  visited : Flags
  path : List Nat

def StaticWorker.initial : StaticWorker := ⟨∅, Flags.none, []⟩

-- `visited.assign`, `path.clear` and the root on the path: nothing is left of the
-- root before.
def StaticWorker.reset (_worker : StaticWorker) (root : Nat) : PathState :=
  ⟨Flags.none.set root true, [root]⟩

-- The same function in both files, as are the two below. The recursive search is
-- that of the sequential counter by brute force.
def count_root (graph : GraphView) (max_cycle_length : Option Nat) (root : Nat)
    (worker : StaticWorker) : Except Error StaticWorker := do
  let (state, histogram) ← simple_dfs graph max_cycle_length root graph.vertex_count root
    (worker.reset root) worker.histogram
  return ⟨histogram, state.visited, state.path⟩

def count_single_thread (graph : GraphView) (max_cycle_length : Option Nat) :
    Except Error CycleHistogram := do
  let worker ← for_each_root graph.vertex_count (fun worker root =>
    count_root graph max_cycle_length root worker) StaticWorker.initial
  return worker.histogram

-- A thread of a team casts the index of its root to a `VertexId`.
def count_simple_cycles (graph : GraphView) (available : Bool) (requested_threads : Int)
    (max_cycle_length : Option Nat) (schedule : List (Nat × Nat)) : Outcome CycleHistogram := do
  Outcome.serial (validate_max_cycle_length max_cycle_length)
  let threads ← resolve_thread_count available requested_threads
  if available && threads > 1 then
    let workers ← Outcome.parallel (run_schedule
      (fun root => count_root graph max_cycle_length (root % 2 ^ 32)) schedule fun _ => StaticWorker.initial)
    Outcome.serial (CycleHistogram.merge_all
      ((List.range threads).map fun thread => (workers thread).histogram))
  else Outcome.serial (count_single_thread graph max_cycle_length)

-- openmp_johnson.cpp
def count_simple_cycles_johnson := count_simple_cycles

-- openmp_read_tarjan.cpp
def count_simple_cycles_read_tarjan := count_simple_cycles

variable {graph : GraphView} {cap : Option Nat}

-- The search without its buffers.
def root_search (graph : GraphView) (cap : Option Nat) (root : Nat) (_ : Unit) : Search Unit := do
  let _ ← simple_dfs graph cap root graph.vertex_count root ⟨Flags.none.set root true, [root]⟩

theorem simple_dfs_counting (root fuel current : Nat) (state : PathState) :
    Search.Counting (fun _ state => state) fun _ : Unit =>
      simple_dfs graph cap root fuel current state := by
  induction fuel generalizing current state with
  | zero => exact Search.counting_unfinished
  | succ fuel ih =>
      refine Search.Counting.foldlM (fun edge _ state => ?_) state
      split_ifs
      · exact Search.Counting.increment (Search.counting_pure state)
      · exact Search.counting_pure state
      · exact Search.counting_pure state
      · exact (ih edge.vertex (state.push edge.vertex)).bind fun state' =>
          Search.counting_pure (state'.pop edge.vertex)

theorem root_search_effects (graph : GraphView) (cap : Option Nat) :
    ∃ events result, Effects (root_search graph cap) events result := by
  have hroot : ∀ root, Search.Counting (fun _ nothing => nothing) fun _ : Unit =>
      root_search graph cap root () := fun root =>
    (simple_dfs_counting root graph.vertex_count root _).bind fun _ => Search.counting_pure ()
  choose events result hspec using hroot
  exact ⟨events, result, ⟨fun root stats histogram => hspec root stats histogram⟩⟩

theorem count_root_view (root : Nat) (worker : StaticWorker) :
    (count_root graph cap root worker).map (fun worker => ((), worker.histogram)) =
      root_search graph cap root () worker.histogram := by
  change ((simple_dfs graph cap root graph.vertex_count root
    ⟨Flags.none.set root true, [root]⟩ worker.histogram).bind _).map _ = (simple_dfs graph cap root
      graph.vertex_count root ⟨Flags.none.set root true, [root]⟩ worker.histogram).bind _
  cases simple_dfs graph cap root graph.vertex_count root ⟨Flags.none.set root true, [root]⟩
    worker.histogram with
  | error error => rfl
  | ok result => rfl

-- The roots in ascending order add what the sequential counters add.
theorem root_searches_emit (cap : Option Nat) (hw : graph.WellFormed) :
    ((List.range graph.vertex_count).foldlM (fun nothing root =>
      root_search graph cap root nothing) ()).Emits () (static_events graph cap) := by
  refine Search.Emits.foldlM_const fun root hr => ?_
  have hstart : (⟨Flags.none.set root true, [root]⟩ : PathState) = PathState.at [root] :=
    PathState.push_at [] root
  rw [root_search, hstart]
  exact (simple_dfs_emits cap hw root graph.vertex_count root []
    (on_path_root (List.mem_range.mp hr)) (by simp)).then (Search.emits_pure ())

theorem root_searches_eq (hw : graph.WellFormed) (hcap : ∀ limit ∈ cap, 2 ≤ limit) :
    (List.range graph.vertex_count).foldlM (fun nothing root =>
      root_search graph cap root nothing) () ∅ =
      (count_simple_cycles_bruteforce graph cap).map ((), ·) := by
  rw [count_simple_cycles_bruteforce_eq hw hcap]
  exact root_searches_emit cap hw ∅

theorem count_single_thread_eq (hw : graph.WellFormed) (hcap : ∀ limit ∈ cap, 2 ≤ limit) :
    count_single_thread graph cap = count_simple_cycles_bruteforce graph cap := by
  have hview : ((List.range graph.vertex_count).foldlM (fun worker root =>
      count_root graph cap root worker) StaticWorker.initial).map
        (fun worker => ((), worker.histogram)) =
      (count_simple_cycles_bruteforce graph cap).map ((), ·) := by
    rw [← root_searches_eq hw hcap]
    exact foldlM_view (count_root_view) _ _
  rw [count_single_thread, for_each_root_eq hw.counted]
  cases hfold : (List.range graph.vertex_count).foldlM (fun worker root =>
      count_root graph cap root worker) StaticWorker.initial with
  | error error =>
      rw [hfold] at hview
      cases hb : count_simple_cycles_bruteforce graph cap with
      | error other => simpa [hb, Except.map] using hview
      | ok histogram => simp [hb, Except.map] at hview
  | ok worker =>
      rw [hfold] at hview
      cases hb : count_simple_cycles_bruteforce graph cap with
      | error other => simp [hb, Except.map] at hview
      | ok histogram => simpa [hb, Except.map] using hview

theorem count_simple_cycles_eq (hw : graph.WellFormed) (hcap : ∀ limit ∈ cap, 2 ≤ limit)
    {histogram : CycleHistogram}
    (hseq : count_simple_cycles_bruteforce graph cap = .ok histogram)
    {available : Bool} {requested_threads : Int} (hthreads : 1 ≤ requested_threads)
    (havailable : available = true ∨ requested_threads = 1) {schedule : List (Nat × Nat)}
    (hs : IsSchedule requested_threads.toNat graph.vertex_count schedule) :
    count_simple_cycles graph available requested_threads cap schedule = .returned histogram := by
  rw [count_simple_cycles, validate_max_cycle_length_ok hcap,
    resolve_thread_count_eq hthreads havailable]
  simp only [Outcome.serial_ok, Outcome.returned_bind]
  split_ifs
  · obtain ⟨events, result, heffects⟩ := root_search_effects graph cap
    have hloop := root_searches_eq hw hcap
    rw [hseq] at hloop
    have hstart : (fun worker : StaticWorker => ((), worker.histogram)) StaticWorker.initial =
        (0, ∅) := rfl
    obtain ⟨workers, hrun, hmerge, -⟩ := team_exact heffects count_root_view hstart hloop hs
    rw [hs.run_narrow hw.counted, hrun]
    simp only [Outcome.parallel_ok, Outcome.returned_bind]
    rw [hmerge]
    rfl
  · rw [count_single_thread_eq hw hcap, hseq]
    rfl

end CycleEnum.OpenMP
