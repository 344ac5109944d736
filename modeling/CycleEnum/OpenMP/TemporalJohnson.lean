import CycleEnum.OpenMP.RootParallel
import CycleEnum.Sequential.TemporalJohnson

namespace CycleEnum.Sequential.TemporalJohnsonStats

-- `merge_stats`
def merge (target source : TemporalJohnsonStats) : TemporalJohnsonStats :=
  ⟨target.dfs_states + source.dfs_states, target.closing_time_prunes + source.closing_time_prunes,
    target.bundled_arrival_timestamps + source.bundled_arrival_timestamps⟩

instance : Add TemporalJohnsonStats := ⟨merge⟩

instance : Zero TemporalJohnsonStats := ⟨⟨0, 0, 0⟩⟩

theorem add_def (a b : TemporalJohnsonStats) :
    a + b = ⟨a.dfs_states + b.dfs_states, a.closing_time_prunes + b.closing_time_prunes,
      a.bundled_arrival_timestamps + b.bundled_arrival_timestamps⟩ := rfl

theorem zero_def : (0 : TemporalJohnsonStats) = ⟨0, 0, 0⟩ := rfl

instance : AddCommMonoid TemporalJohnsonStats where
  add_assoc a b c := by simp only [add_def, Nat.add_assoc]
  zero_add a := by simp only [add_def, zero_def, Nat.zero_add]
  add_zero a := by simp only [add_def, zero_def, Nat.add_zero]
  add_comm a b := by
    simp only [add_def, mk.injEq]
    omega
  nsmul := nsmulRec

end CycleEnum.Sequential.TemporalJohnsonStats

namespace CycleEnum.OpenMP.TemporalJohnson

open CycleEnum.Enumeration CycleEnum.Sequential TemporalJohnsonSearch

-- `visited_`, `path_` and `closing_after_` stay as the last start event left them.
structure TemporalJohnsonWorker where
  result : TemporalJohnsonResult
  search : TimedState

namespace TemporalJohnsonWorker

def construct (window_width : Int) (max_cycle_length : Option Nat) :
    Except Error TemporalJohnsonWorker := do
  validate_max_cycle_length max_cycle_length
  let _ ← checked_window_end 0 window_width
  return ⟨⟨∅, ⟨0, 0, 0⟩⟩, ⟨⟨Flags.none, []⟩, ClosingTimes.none⟩⟩

-- `closing_after_.assign`, `std::fill` and `path_.clear` before the first two
-- vertices are marked.
def reset (_worker : TemporalJohnsonWorker) (root first_vertex : Nat) : TimedState :=
  TimedState.start root first_vertex

-- The recursive search is that of the sequential counter.
def start (graph : GraphView) (window_width : Int) (max_cycle_length : Option Nat)
    (root first_vertex : Nat) (worker : TemporalJohnsonWorker) (bundle : TimestampCount) :
    Except Error TemporalJohnsonWorker := do
  let window_end ← checked_window_end bundle.timestamp window_width
  let ((_, state), histogram) ← dfs graph max_cycle_length root window_end graph.vertex_count
    first_vertex [bundle] ⟨worker.reset root first_vertex, worker.result.stats⟩
    worker.result.histogram
  return ⟨⟨histogram, state.stats⟩, state.search⟩

def count_root (graph : GraphView) (window_width : Int) (max_cycle_length : Option Nat)
    (root : Nat) (worker : TemporalJohnsonWorker) : Except Error TemporalJohnsonWorker :=
  (graph.outgoing_row root).foldlM (fun worker edge => do
    let counts ← start_counts graph edge
    counts.foldlM (start graph window_width max_cycle_length root edge.vertex) worker) worker

def outcome (worker : TemporalJohnsonWorker) : TemporalJohnsonStats × CycleHistogram :=
  (worker.result.stats, worker.result.histogram)

end TemporalJohnsonWorker

def count_single_thread (graph : GraphView) (window_width : Int)
    (max_cycle_length : Option Nat) : Except Error TemporalJohnsonResult :=
  (run_single graph (TemporalJohnsonWorker.construct window_width max_cycle_length)
    (TemporalJohnsonWorker.count_root graph window_width max_cycle_length)
    TemporalJohnsonWorker.outcome).map fun (stats, histogram) => ⟨histogram, stats⟩

def count_temporal_cycles_johnson_with_stats (graph : GraphView) (window_width : Int)
    (available : Bool) (requested_threads : Int) (max_cycle_length : Option Nat)
    (schedule : List (Nat × Nat)) : Outcome TemporalJohnsonResult := do
  let (stats, histogram) ← run_team graph
    (TemporalJohnsonWorker.construct window_width max_cycle_length)
    (TemporalJohnsonWorker.count_root graph window_width max_cycle_length)
    TemporalJohnsonWorker.outcome available requested_threads schedule
  return ⟨histogram, stats⟩

def count_temporal_cycles_johnson (graph : GraphView) (window_width : Int) (available : Bool)
    (requested_threads : Int) (max_cycle_length : Option Nat) (schedule : List (Nat × Nat)) :
    Outcome CycleHistogram := do
  let result ← count_temporal_cycles_johnson_with_stats graph window_width available
    requested_threads max_cycle_length schedule
  return result.histogram

variable {graph : GraphView} {cap : Option Nat} {width : Int}

-- The start events of one root without the buffers.
def root_search (graph : GraphView) (width : Int) (cap : Option Nat) (root : Nat)
    (stats : TemporalJohnsonStats) : Search TemporalJohnsonStats :=
  (graph.outgoing_row root).foldlM (fun stats edge => do
    let counts ← Search.ofExcept (start_counts graph edge)
    counts.foldlM (TemporalJohnsonSearch.start graph width cap root edge.vertex) stats) stats

theorem run_eq (graph : GraphView) (width : Int) (cap : Option Nat) :
    run graph width cap =
      for_each_root graph.vertex_count (fun stats root => root_search graph width cap root stats)
        0 := rfl

theorem start_view (root first : Nat) (bundle : TimestampCount) (worker : TemporalJohnsonWorker) :
    (worker.start graph width cap root first bundle).map TemporalJohnsonWorker.outcome =
      TemporalJohnsonSearch.start graph width cap root first worker.outcome.1 bundle
        worker.outcome.2 := by
  rw [TemporalJohnsonWorker.start, TemporalJohnsonSearch.start]
  cases checked_window_end bundle.timestamp width with
  | error error => rfl
  | ok window_end =>
      change ((dfs graph cap root window_end graph.vertex_count first [bundle]
        ⟨TimedState.start root first, worker.result.stats⟩ worker.result.histogram).bind _).map _ =
        (dfs graph cap root window_end graph.vertex_count first [bundle]
          ⟨TimedState.start root first, worker.result.stats⟩ worker.result.histogram).bind _
      cases dfs graph cap root window_end graph.vertex_count first [bundle]
          ⟨TimedState.start root first, worker.result.stats⟩ worker.result.histogram with
      | error error => rfl
      | ok result => rfl

theorem count_root_view (root : Nat) (worker : TemporalJohnsonWorker) :
    (worker.count_root graph width cap root).map TemporalJohnsonWorker.outcome =
      root_search graph width cap root worker.outcome.1 worker.outcome.2 := by
  have hedge : ∀ (edge : AdjacencyEntry) (worker : TemporalJohnsonWorker),
      ((start_counts graph edge).bind fun counts => counts.foldlM
        (TemporalJohnsonWorker.start graph width cap root edge.vertex) worker).map
          TemporalJohnsonWorker.outcome =
        (Search.ofExcept (start_counts graph edge) >>= fun counts => counts.foldlM
          (TemporalJohnsonSearch.start graph width cap root edge.vertex) worker.outcome.1)
            worker.outcome.2 := by
    intro edge worker
    cases start_counts graph edge with
    | error error => rfl
    | ok counts => exact foldlM_view (start_view root edge.vertex) counts worker
  exact foldlM_view hedge (graph.outgoing_row root) worker

-- The stats that a call finds are those it returns more.
def shift (stats : TemporalJohnsonStats) (state : TemporalJohnsonState) : TemporalJohnsonState :=
  { state with stats := stats + state.stats }

theorem dfs_counting (root : Nat) (window_end : Int) (fuel current : Nat)
    (arrivals : TimestampBundle) (state : TemporalJohnsonState) :
    Search.Counting (fun stats (result : Bool × TemporalJohnsonState) =>
      (result.1, shift stats result.2)) fun stats =>
        dfs graph cap root window_end fuel current arrivals (shift stats state) := by
  induction fuel generalizing current arrivals state with
  | zero => exact Search.counting_unfinished
  | succ fuel ih =>
      obtain ⟨search, cost⟩ := state
      let entered : TemporalJohnsonStats := ⟨cost.dfs_states + 1, cost.closing_time_prunes,
        cost.bundled_arrival_timestamps + arrivals.length⟩
      let pruned := { entered with closing_time_prunes := cost.closing_time_prunes + 1 }
      have hstats : ∀ stats : TemporalJohnsonStats, (⟨(stats + cost).dfs_states + 1,
          (stats + cost).closing_time_prunes,
          (stats + cost).bundled_arrival_timestamps + arrivals.length⟩ : TemporalJohnsonStats) =
          stats + entered := by
        intro stats
        simp only [entered, TemporalJohnsonStats.add_def, Nat.add_assoc]
      have hpruned : ∀ stats : TemporalJohnsonStats, (⟨(stats + cost).dfs_states + 1,
          (stats + cost).closing_time_prunes + 1,
          (stats + cost).bundled_arrival_timestamps + arrivals.length⟩ : TemporalJohnsonStats) =
          stats + pruned := by
        intro stats
        simp only [pruned, entered, TemporalJohnsonStats.add_def, Nat.add_assoc]
      cases arrivals with
      | nil =>
          simp only [dfs, shift, hstats]
          exact Search.counting_pure ((false, ⟨search, entered⟩) : Bool × TemporalJohnsonState)
      | cons earliest arrivals =>
          simp only [dfs, shift, hstats, hpruned]
          refine Search.Counting.ofExcept fun found _ => ?_
          obtain ⟨reached, closing_after⟩ := found
          cases reached with
          | false =>
              exact Search.counting_pure
                ((false, ⟨{ search with closing_after }, pruned⟩) : Bool × TemporalJohnsonState)
          | true =>
              refine Search.Counting.foldlM (fun edge _ result => ?_)
                ((false, ⟨{ search with closing_after }, entered⟩) : Bool × TemporalJohnsonState)
              obtain ⟨found_cycle, state⟩ := result
              dsimp only
              split_ifs
              · refine Search.Counting.ofExcept fun count _ => ?_
                split_ifs
                · exact Search.counting_pure (found_cycle, state)
                · exact Search.Counting.increment (Search.counting_pure (true, state))
              · exact Search.counting_pure (found_cycle, state)
              · exact Search.counting_pure (found_cycle, state)
              · refine Search.Counting.ofExcept fun next_arrivals _ => ?_
                split_ifs
                · exact Search.counting_pure (found_cycle, state)
                · refine (ih edge.vertex next_arrivals
                    { state with search := state.search.push edge.vertex }).bind fun result => ?_
                  exact Search.counting_pure ((result.1 || found_cycle,
                    { result.2 with search := result.2.search.pop edge.vertex }))

theorem start_counting (root first : Nat) (bundle : TimestampCount) (cost : TemporalJohnsonStats) :
    Search.Counting (· + ·) fun stats =>
      TemporalJohnsonSearch.start graph width cap root first (stats + cost) bundle := by
  refine Search.Counting.ofExcept fun window_end _ => ?_
  refine (dfs_counting root window_end graph.vertex_count first [bundle]
    ⟨TimedState.start root first, cost⟩).bind fun result => ?_
  exact Search.counting_pure result.2.stats

theorem root_search_effects (graph : GraphView) (width : Int) (cap : Option Nat) :
    ∃ events result, Effects (root_search graph width cap) events result := by
  have hroot : ∀ root, Search.Counting (· + ·) fun stats =>
      root_search graph width cap root (stats + 0) := by
    intro root
    refine Search.Counting.foldlM (fun edge _ cost => ?_) 0
    refine Search.Counting.ofExcept fun counts _ => ?_
    exact Search.Counting.foldlM (fun bundle _ cost => start_counting root edge.vertex bundle cost)
      cost
  choose events result hspec using hroot
  refine ⟨events, result, ⟨fun root stats histogram => ?_⟩⟩
  have h := hspec root stats histogram
  simp only [add_zero] at h
  exact h

theorem construct_outcome {start : TemporalJohnsonWorker}
    (h : TemporalJohnsonWorker.construct width cap = .ok start) : start.outcome = (0, ∅) := by
  rw [TemporalJohnsonWorker.construct] at h
  cases hcap : validate_max_cycle_length cap with
  | error error => simp [hcap, bind, Except.bind] at h
  | ok _ =>
      cases hwidth : checked_window_end 0 width with
      | error error => simp [hcap, hwidth, bind, Except.bind] at h
      | ok _ =>
          rw [hcap, hwidth] at h
          obtain rfl := Except.ok.inj h
          rfl

theorem construct_ok (h0 : 0 ≤ width) (hmax : width ≤ MAX_TIMESTAMP)
    (hcap : ∀ limit ∈ cap, 2 ≤ limit) : TemporalJohnsonWorker.construct width cap =
      .ok ⟨⟨∅, ⟨0, 0, 0⟩⟩, ⟨⟨Flags.none, []⟩, ClosingTimes.none⟩⟩ := by
  rw [TemporalJohnsonWorker.construct, validate_max_cycle_length_ok hcap,
    checked_window_end_zero h0 hmax]
  rfl

-- One worker does what the sequential counter does.
theorem count_single_thread_eq (h0 : 0 ≤ width) (hmax : width ≤ MAX_TIMESTAMP)
    (hcap : ∀ limit ∈ cap, 2 ≤ limit) : count_single_thread graph width cap =
      Sequential.count_temporal_cycles_johnson_with_stats graph width cap := by
  rw [count_single_thread, construct_ok h0 hmax hcap, run_single_view count_root_view,
    Sequential.count_temporal_cycles_johnson_with_stats, validate_max_cycle_length_ok hcap,
    checked_window_end_zero h0 hmax, run_eq]
  change Except.map _ (for_each_root graph.vertex_count
      (fun stats root => root_search graph width cap root stats) 0 ∅) =
    (for_each_root graph.vertex_count
      (fun stats root => root_search graph width cap root stats) 0 ∅).bind _
  cases for_each_root graph.vertex_count
      (fun stats root => root_search graph width cap root stats) 0 ∅ with
  | error error => rfl
  | ok result => rfl

theorem count_temporal_cycles_johnson_eq (graph : GraphView) (width : Int) (available : Bool)
    (requested_threads : Int) (cap : Option Nat) (schedule : List (Nat × Nat)) :
    count_temporal_cycles_johnson graph width available requested_threads cap schedule =
      (run_team graph (TemporalJohnsonWorker.construct width cap)
        (TemporalJohnsonWorker.count_root graph width cap) TemporalJohnsonWorker.outcome available
        requested_threads schedule).bind fun total => .returned total.2 := by
  rw [count_temporal_cycles_johnson, count_temporal_cycles_johnson_with_stats]
  cases run_team graph (TemporalJohnsonWorker.construct width cap)
      (TemporalJohnsonWorker.count_root graph width cap) TemporalJohnsonWorker.outcome available
      requested_threads schedule with
  | returned total => rfl
  | threw error => rfl
  | threw_runtime_error what => rfl
  | terminated => rfl

theorem count_temporal_cycles_johnson_with_stats_iff (hcount : graph.vertex_count < 2 ^ 32) (h0 : 0 ≤ width)
    (hmax : width ≤ MAX_TIMESTAMP) (hcap : ∀ limit ∈ cap, 2 ≤ limit) {available : Bool}
    {requested_threads : Int} (hthreads : 1 ≤ requested_threads)
    (havailable : available = true ∨ requested_threads = 1) {schedule : List (Nat × Nat)}
    (hs : IsSchedule requested_threads.toNat graph.vertex_count schedule)
    (result : TemporalJohnsonResult) :
    count_temporal_cycles_johnson_with_stats graph width available requested_threads cap schedule =
        .returned result ↔
      Sequential.count_temporal_cycles_johnson_with_stats graph width cap = .ok result := by
  obtain ⟨events, cost, heffects⟩ := root_search_effects graph width cap
  rw [← count_single_thread_eq h0 hmax hcap, count_single_thread,
    count_temporal_cycles_johnson_with_stats, construct_ok h0 hmax hcap]
  exact run_team_map_iff hcount heffects count_root_view rfl hthreads havailable hs _ result

end CycleEnum.OpenMP.TemporalJohnson
