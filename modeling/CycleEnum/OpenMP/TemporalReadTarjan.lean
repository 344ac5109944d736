import CycleEnum.OpenMP.RootParallel
import CycleEnum.Sequential.TemporalReadTarjan

namespace CycleEnum.OpenMP

structure TemporalReadTarjanStats where
  dfs_states : Nat
  closing_time_prunes : Nat
  timestamp_extensions : Nat
deriving DecidableEq, Repr

structure TemporalReadTarjanResult where
  histogram : CycleHistogram
  stats : TemporalReadTarjanStats

namespace TemporalReadTarjanStats

-- `merge_stats`
def merge (target source : TemporalReadTarjanStats) : TemporalReadTarjanStats :=
  ⟨target.dfs_states + source.dfs_states, target.closing_time_prunes + source.closing_time_prunes,
    target.timestamp_extensions + source.timestamp_extensions⟩

instance : Add TemporalReadTarjanStats := ⟨merge⟩

instance : Zero TemporalReadTarjanStats := ⟨⟨0, 0, 0⟩⟩

theorem add_def (a b : TemporalReadTarjanStats) :
    a + b = ⟨a.dfs_states + b.dfs_states, a.closing_time_prunes + b.closing_time_prunes,
      a.timestamp_extensions + b.timestamp_extensions⟩ := rfl

theorem zero_def : (0 : TemporalReadTarjanStats) = ⟨0, 0, 0⟩ := rfl

instance : AddCommMonoid TemporalReadTarjanStats where
  add_assoc a b c := by simp only [add_def, Nat.add_assoc]
  zero_add a := by simp only [add_def, zero_def, Nat.zero_add]
  add_zero a := by simp only [add_def, zero_def, Nat.add_zero]
  add_comm a b := by
    simp only [add_def, mk.injEq]
    omega
  nsmul := nsmulRec

end TemporalReadTarjanStats

namespace TemporalReadTarjan

open CycleEnum.Enumeration CycleEnum.Sequential

structure TemporalReadTarjanState where
  search : TimedState
  stats : TemporalReadTarjanStats

-- The recursive search of the sequential counter with counters of its own.
def extend (graph : GraphView) (max_cycle_length : Option Nat) (root : Nat) (window_end : Int) :
    Nat → Nat → Int → TemporalReadTarjanState → Search TemporalReadTarjanState
  | 0, _, _, _ => Search.finished none
  | fuel + 1, current, previous_timestamp, ⟨search, stats⟩ => do
      let stats := { stats with dfs_states := stats.dfs_states + 1 }
      let (reached, closing_after) ← Search.ofExcept (can_reach_root graph root window_end
        (reach_fuel graph) current previous_timestamp search.closing_after)
      let search := { search with closing_after }
      if !reached then
        return ⟨search, { stats with closing_time_prunes := stats.closing_time_prunes + 1 }⟩
      else
        (graph.outgoing_row current).foldlM (fun (state : TemporalReadTarjanState) edge => do
          let range ← Search.ofExcept (timestamps_after graph.timestamps edge.timestamp_begin
            edge.timestamp_end previous_timestamp window_end)
          let extended := { state.stats with
            timestamp_extensions := state.stats.timestamp_extensions + range.size }
          if range.empty then return state
          else if edge.vertex = root ∧ 2 ≤ state.search.path.path.length then do
            Search.increment (length_of_size state.search.path.path.length) range.size
            return { state with stats := extended }
          else if state.search.path.visited edge.vertex then return state
          else if cut max_cycle_length state.search.path.path.length then return state
          else do
            let state ← range.offsets.foldlM (fun state timestamp_offset =>
              extend graph max_cycle_length root window_end fuel edge.vertex
                (timestamp_at graph.timestamps timestamp_offset) state)
              ⟨state.search.push edge.vertex, extended⟩
            return { state with search := state.search.pop edge.vertex }) ⟨search, stats⟩

-- `visited_`, `path_` and `closing_after_` stay as the last start event left them.
structure TemporalReadTarjanWorker where
  result : TemporalReadTarjanResult
  search : TimedState

namespace TemporalReadTarjanWorker

def construct (window_width : Int) (max_cycle_length : Option Nat) :
    Except Error TemporalReadTarjanWorker := do
  validate_max_cycle_length max_cycle_length
  let _ ← checked_window_end 0 window_width
  return ⟨⟨∅, ⟨0, 0, 0⟩⟩, ⟨⟨Flags.none, []⟩, ClosingTimes.none⟩⟩

-- `closing_after_.assign`, `std::fill` and `path_.clear` before the first two
-- vertices are marked.
def reset (_worker : TemporalReadTarjanWorker) (root first_vertex : Nat) : TimedState :=
  TimedState.start root first_vertex

def start (graph : GraphView) (window_width : Int) (max_cycle_length : Option Nat)
    (root first_vertex : Nat) (start_timestamp : Int) (worker : TemporalReadTarjanWorker) :
    Except Error TemporalReadTarjanWorker := do
  let window_end ← checked_window_end start_timestamp window_width
  let (state, histogram) ← extend graph max_cycle_length root window_end graph.vertex_count
    first_vertex start_timestamp ⟨worker.reset root first_vertex, worker.result.stats⟩
    worker.result.histogram
  return ⟨⟨histogram, state.stats⟩, state.search⟩

def count_root (graph : GraphView) (window_width : Int) (max_cycle_length : Option Nat)
    (root : Nat) (worker : TemporalReadTarjanWorker) : Except Error TemporalReadTarjanWorker :=
  (graph.outgoing_row root).foldlM (fun worker edge =>
    (List.range' edge.timestamp_begin (edge.timestamp_end - edge.timestamp_begin)).foldlM
      (fun worker timestamp_offset => start graph window_width max_cycle_length root edge.vertex
        (timestamp_at graph.timestamps timestamp_offset) worker) worker) worker

def outcome (worker : TemporalReadTarjanWorker) : TemporalReadTarjanStats × CycleHistogram :=
  (worker.result.stats, worker.result.histogram)

end TemporalReadTarjanWorker

def count_single_thread (graph : GraphView) (window_width : Int)
    (max_cycle_length : Option Nat) : Except Error TemporalReadTarjanResult :=
  (run_single graph (TemporalReadTarjanWorker.construct window_width max_cycle_length)
    (TemporalReadTarjanWorker.count_root graph window_width max_cycle_length)
    TemporalReadTarjanWorker.outcome).map fun (stats, histogram) => ⟨histogram, stats⟩

def count_temporal_cycles_read_tarjan_with_stats (graph : GraphView) (window_width : Int)
    (available : Bool) (requested_threads : Int) (max_cycle_length : Option Nat)
    (schedule : List (Nat × Nat)) : Outcome TemporalReadTarjanResult := do
  let (stats, histogram) ← run_team graph
    (TemporalReadTarjanWorker.construct window_width max_cycle_length)
    (TemporalReadTarjanWorker.count_root graph window_width max_cycle_length)
    TemporalReadTarjanWorker.outcome available requested_threads schedule
  return ⟨histogram, stats⟩

def count_temporal_cycles_read_tarjan (graph : GraphView) (window_width : Int) (available : Bool)
    (requested_threads : Int) (max_cycle_length : Option Nat) (schedule : List (Nat × Nat)) :
    Outcome CycleHistogram := do
  let result ← count_temporal_cycles_read_tarjan_with_stats graph window_width available
    requested_threads max_cycle_length schedule
  return result.histogram

variable {graph : GraphView} {cap : Option Nat} {width : Int}

-- The stats that a call finds are those it returns more.
def shift (stats : TemporalReadTarjanStats) (state : TemporalReadTarjanState) :
    TemporalReadTarjanState :=
  { state with stats := stats + state.stats }

theorem extend_counting (root : Nat) (window_end : Int) (fuel current : Nat) (previous : Int)
    (state : TemporalReadTarjanState) :
    Search.Counting shift fun stats =>
      extend graph cap root window_end fuel current previous (shift stats state) := by
  induction fuel generalizing current previous state with
  | zero => exact Search.counting_unfinished
  | succ fuel ih =>
      obtain ⟨search, cost⟩ := state
      let entered := { cost with dfs_states := cost.dfs_states + 1 }
      let pruned := { entered with closing_time_prunes := cost.closing_time_prunes + 1 }
      have hstats : ∀ stats : TemporalReadTarjanStats, (⟨(stats + cost).dfs_states + 1,
          (stats + cost).closing_time_prunes, (stats + cost).timestamp_extensions⟩ :
            TemporalReadTarjanStats) = stats + entered := fun stats => rfl
      have hpruned : ∀ stats : TemporalReadTarjanStats, (⟨(stats + cost).dfs_states + 1,
          (stats + cost).closing_time_prunes + 1, (stats + cost).timestamp_extensions⟩ :
            TemporalReadTarjanStats) = stats + pruned := fun stats => rfl
      have hextended : ∀ (stats cost : TemporalReadTarjanStats) (size : Nat),
          (⟨(stats + cost).dfs_states, (stats + cost).closing_time_prunes,
            (stats + cost).timestamp_extensions + size⟩ : TemporalReadTarjanStats) =
            stats + { cost with timestamp_extensions := cost.timestamp_extensions + size } := by
        intro stats cost size
        simp only [TemporalReadTarjanStats.add_def, Nat.add_assoc]
      simp only [extend, shift, hstats, hpruned]
      refine Search.Counting.ofExcept fun found _ => ?_
      obtain ⟨reached, closing_after⟩ := found
      cases reached with
      | false =>
          exact Search.counting_pure
            (⟨{ search with closing_after }, pruned⟩ : TemporalReadTarjanState)
      | true =>
          refine Search.Counting.foldlM (fun edge _ state => ?_)
            (⟨{ search with closing_after }, entered⟩ : TemporalReadTarjanState)
          simp only [shift, hextended]
          refine Search.Counting.ofExcept fun range _ => ?_
          let extended := { state.stats with
            timestamp_extensions := state.stats.timestamp_extensions + range.size }
          have hinner : Search.Counting shift fun stats =>
              range.offsets.foldlM (fun state offset => extend graph cap root window_end fuel
                edge.vertex (timestamp_at graph.timestamps offset) state)
                (shift stats ⟨state.search.push edge.vertex, extended⟩) :=
            Search.Counting.foldlM (fun offset _ state =>
              ih edge.vertex (timestamp_at graph.timestamps offset) state) _
          split_ifs
          · exact Search.counting_pure state
          · exact Search.Counting.increment (Search.counting_pure
              (⟨state.search, extended⟩ : TemporalReadTarjanState))
          · exact Search.counting_pure state
          · exact Search.counting_pure state
          · exact hinner.bind fun state => Search.counting_pure
              (⟨state.search.pop edge.vertex, state.stats⟩ : TemporalReadTarjanState)

-- Without its counters the search is that of the sequential counter.
theorem extend_erases (root : Nat) (window_end : Int) (fuel current : Nat) (previous : Int)
    (state : TemporalReadTarjanState) :
    Search.Erases TemporalReadTarjanState.search
      (extend graph cap root window_end fuel current previous state)
      (TemporalReadTarjanSearch.extend graph cap root window_end fuel current previous
        state.search) := by
  induction fuel generalizing current previous state with
  | zero => exact Search.erases_unfinished _
  | succ fuel ih =>
      obtain ⟨search, stats⟩ := state
      simp only [extend, TemporalReadTarjanSearch.extend]
      refine Search.Erases.same _ fun found => ?_
      obtain ⟨reached, closing_after⟩ := found
      cases reached with
      | false => exact Search.erases_pure _ _
      | true =>
          refine Search.Erases.foldlM (fun edge _ state => ?_) _
          refine Search.Erases.same _ fun range => ?_
          have hinner : ∀ start : TemporalReadTarjanState, Search.Erases
              TemporalReadTarjanState.search (range.offsets.foldlM (fun state offset =>
                extend graph cap root window_end fuel edge.vertex
                  (timestamp_at graph.timestamps offset) state) start)
              (range.offsets.foldlM (fun state offset =>
                TemporalReadTarjanSearch.extend graph cap root window_end fuel edge.vertex
                  (timestamp_at graph.timestamps offset) state) start.search) :=
            Search.Erases.foldlM fun offset _ state =>
              ih edge.vertex (timestamp_at graph.timestamps offset) state
          split_ifs
          · exact Search.erases_pure _ _
          · exact Search.Erases.same _ fun _ => Search.erases_pure _ _
          · exact Search.erases_pure _ _
          · exact Search.erases_pure _ _
          · exact (hinner _).bind fun state => Search.erases_pure _ _

-- The start events of one root without the buffers.
def start_search (graph : GraphView) (width : Int) (cap : Option Nat) (root first : Nat)
    (start_timestamp : Int) (stats : TemporalReadTarjanStats) : Search TemporalReadTarjanStats := do
  let window_end ← Search.ofExcept (checked_window_end start_timestamp width)
  let state ← extend graph cap root window_end graph.vertex_count first start_timestamp
    ⟨TimedState.start root first, stats⟩
  return state.stats

def root_search (graph : GraphView) (width : Int) (cap : Option Nat) (root : Nat)
    (stats : TemporalReadTarjanStats) : Search TemporalReadTarjanStats :=
  (graph.outgoing_row root).foldlM (fun stats edge =>
    (List.range' edge.timestamp_begin (edge.timestamp_end - edge.timestamp_begin)).foldlM
      (fun stats offset => start_search graph width cap root edge.vertex
        (timestamp_at graph.timestamps offset) stats) stats) stats

theorem start_view (root first : Nat) (start_timestamp : Int) (worker : TemporalReadTarjanWorker) :
    (worker.start graph width cap root first start_timestamp).map TemporalReadTarjanWorker.outcome =
      start_search graph width cap root first start_timestamp worker.outcome.1 worker.outcome.2 := by
  rw [TemporalReadTarjanWorker.start, start_search]
  cases checked_window_end start_timestamp width with
  | error error => rfl
  | ok window_end =>
      change ((extend graph cap root window_end graph.vertex_count first start_timestamp
        ⟨TimedState.start root first, worker.result.stats⟩ worker.result.histogram).bind _).map _ =
        (extend graph cap root window_end graph.vertex_count first start_timestamp
          ⟨TimedState.start root first, worker.result.stats⟩ worker.result.histogram).bind _
      cases extend graph cap root window_end graph.vertex_count first start_timestamp
          ⟨TimedState.start root first, worker.result.stats⟩ worker.result.histogram with
      | error error => rfl
      | ok result => rfl

theorem count_root_view (root : Nat) (worker : TemporalReadTarjanWorker) :
    (worker.count_root graph width cap root).map TemporalReadTarjanWorker.outcome =
      root_search graph width cap root worker.outcome.1 worker.outcome.2 := by
  refine foldlM_view (fun edge worker => ?_) (graph.outgoing_row root) worker
  exact foldlM_view (fun offset worker => start_view root edge.vertex
    (timestamp_at graph.timestamps offset) worker) _ worker

theorem start_counting (root first : Nat) (start_timestamp : Int) (cost : TemporalReadTarjanStats) :
    Search.Counting (· + ·) fun stats =>
      start_search graph width cap root first start_timestamp (stats + cost) := by
  refine Search.Counting.ofExcept fun window_end _ => ?_
  refine (extend_counting root window_end graph.vertex_count first start_timestamp
    ⟨TimedState.start root first, cost⟩).bind fun state => ?_
  exact Search.counting_pure state.stats

theorem root_search_effects (graph : GraphView) (width : Int) (cap : Option Nat) :
    ∃ events result, Effects (root_search graph width cap) events result := by
  have hroot : ∀ root, Search.Counting (· + ·) fun stats =>
      root_search graph width cap root (stats + 0) := by
    intro root
    refine Search.Counting.foldlM (fun edge _ cost => ?_) 0
    exact Search.Counting.foldlM (fun offset _ cost => start_counting root edge.vertex
      (timestamp_at graph.timestamps offset) cost) cost
  choose events result hspec using hroot
  refine ⟨events, result, ⟨fun root stats histogram => ?_⟩⟩
  have h := hspec root stats histogram
  simp only [add_zero] at h
  exact h

theorem construct_outcome {start : TemporalReadTarjanWorker}
    (h : TemporalReadTarjanWorker.construct width cap = .ok start) : start.outcome = (0, ∅) := by
  rw [TemporalReadTarjanWorker.construct] at h
  cases hcap : validate_max_cycle_length cap with
  | error error => simp [hcap, bind, Except.bind] at h
  | ok _ =>
      cases hwidth : checked_window_end 0 width with
      | error error => simp [hcap, hwidth, bind, Except.bind] at h
      | ok _ =>
          rw [hcap, hwidth] at h
          obtain rfl := Except.ok.inj h
          rfl

theorem construct_ok (h0 : 0 ≤ width) (hmax : width ≤ MAX_TIMESTAMP)
    (hcap : ∀ limit ∈ cap, 2 ≤ limit) : TemporalReadTarjanWorker.construct width cap =
      .ok ⟨⟨∅, ⟨0, 0, 0⟩⟩, ⟨⟨Flags.none, []⟩, ClosingTimes.none⟩⟩ := by
  rw [TemporalReadTarjanWorker.construct, validate_max_cycle_length_ok hcap,
    checked_window_end_zero h0 hmax]
  rfl

theorem root_searches_erase (graph : GraphView) (width : Int) (cap : Option Nat) :
    Search.Erases (fun _ : TemporalReadTarjanStats => ())
      (for_each_root graph.vertex_count (fun stats root =>
        root_search graph width cap root stats) 0)
      (TemporalReadTarjanSearch.run graph width cap) := by
  simp only [TemporalReadTarjanSearch.run, for_each_start, Search.forM_eq_foldlM]
  refine Search.Erases.root_loop (fun root stats => ?_) _ 0 0
  refine Search.Erases.foldlM (fun edge _ stats => ?_) stats
  refine Search.Erases.foldlM (fun offset _ stats => ?_) stats
  refine Search.Erases.same _ fun window_end => ?_
  exact (extend_erases root window_end graph.vertex_count edge.vertex _ _).bind fun state =>
    Search.erases_pure _ state.stats

-- One worker counts what the sequential counter does.
theorem count_single_thread_histogram (h0 : 0 ≤ width) (hmax : width ≤ MAX_TIMESTAMP)
    (hcap : ∀ limit ∈ cap, 2 ≤ limit) :
    (count_single_thread graph width cap).map (·.histogram) =
      Sequential.count_temporal_cycles_read_tarjan graph width cap := by
  rw [count_single_thread, construct_ok h0 hmax hcap, run_single_view count_root_view,
    Sequential.count_temporal_cycles_read_tarjan, validate_max_cycle_length_ok hcap,
    checked_window_end_zero h0 hmax]
  have herase := root_searches_erase graph width cap ∅
  change _ = (TemporalReadTarjanSearch.run graph width cap ∅).map (·.2)
  rw [← herase]
  change Except.map _ (Except.map _ (for_each_root graph.vertex_count
    (fun stats root => root_search graph width cap root stats) 0 ∅)) = _
  cases for_each_root graph.vertex_count
      (fun stats root => root_search graph width cap root stats) 0 ∅ with
  | error error => rfl
  | ok result => rfl

theorem count_temporal_cycles_read_tarjan_eq (graph : GraphView) (width : Int)
    (available : Bool) (requested_threads : Int) (cap : Option Nat) (schedule : List (Nat × Nat)) :
    count_temporal_cycles_read_tarjan graph width available requested_threads cap schedule =
      (run_team graph (TemporalReadTarjanWorker.construct width cap)
        (TemporalReadTarjanWorker.count_root graph width cap) TemporalReadTarjanWorker.outcome
        available requested_threads schedule).bind fun total => .returned total.2 := by
  rw [count_temporal_cycles_read_tarjan, count_temporal_cycles_read_tarjan_with_stats]
  cases run_team graph (TemporalReadTarjanWorker.construct width cap)
      (TemporalReadTarjanWorker.count_root graph width cap) TemporalReadTarjanWorker.outcome
      available requested_threads schedule with
  | returned total => rfl
  | threw error => rfl
  | threw_runtime_error what => rfl
  | terminated => rfl

theorem count_temporal_cycles_read_tarjan_with_stats_one (graph : GraphView) (width : Int)
    (available : Bool) (cap : Option Nat) (schedule : List (Nat × Nat)) :
    count_temporal_cycles_read_tarjan_with_stats graph width available 1 cap schedule =
      Outcome.serial (count_single_thread graph width cap) := by
  rw [count_temporal_cycles_read_tarjan_with_stats, run_team_one, count_single_thread, ← Outcome.serial_map]
  rfl

theorem count_temporal_cycles_read_tarjan_with_stats_iff (hcount : graph.vertex_count < 2 ^ 32) (h0 : 0 ≤ width)
    (hmax : width ≤ MAX_TIMESTAMP) (hcap : ∀ limit ∈ cap, 2 ≤ limit) {available : Bool}
    {requested_threads : Int} (hthreads : 1 ≤ requested_threads)
    (havailable : available = true ∨ requested_threads = 1) {schedule : List (Nat × Nat)}
    (hs : IsSchedule requested_threads.toNat graph.vertex_count schedule)
    (result : TemporalReadTarjanResult) :
    count_temporal_cycles_read_tarjan_with_stats graph width available requested_threads cap
        schedule = .returned result ↔ count_single_thread graph width cap = .ok result := by
  obtain ⟨events, cost, heffects⟩ := root_search_effects graph width cap
  rw [count_single_thread, count_temporal_cycles_read_tarjan_with_stats, construct_ok h0 hmax hcap]
  exact run_team_map_iff hcount heffects count_root_view rfl hthreads havailable hs _ result

end TemporalReadTarjan

end CycleEnum.OpenMP
