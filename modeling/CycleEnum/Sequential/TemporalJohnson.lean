import CycleEnum.Sequential.TemporalReadTarjan

namespace CycleEnum.Sequential

open Enumeration

structure TimestampCount where
  timestamp : Int
  count : Nat
deriving DecidableEq, Repr

abbrev TimestampBundle := List TimestampCount

def add_count (target value : Nat) : Except Error Nat :=
  if value > MAX_COUNT - target then .error (.overflow_error "temporal path count overflow")
  else .ok (target + value)

def multiply_count (count multiplier : Nat) : Except Error Nat :=
  if count = 0 ∨ multiplier = 0 then .ok 0
  else if multiplier > MAX_COUNT / count then .error (.overflow_error "temporal path count overflow")
  else .ok (count * multiplier)

-- `add_count(counts[timestamp], value)`. The map of counts is given by what
-- iterating over it yields: distinct timestamps, ascending.
def add_at (timestamp : Int) (value : Nat) : TimestampBundle → Except Error TimestampBundle
  | [] => do return [⟨timestamp, ← add_count 0 value⟩]
  | entry :: counts =>
      if timestamp < entry.timestamp then do
        return ⟨timestamp, ← add_count 0 value⟩ :: entry :: counts
      else if timestamp = entry.timestamp then do
        return ⟨timestamp, ← add_count entry.count value⟩ :: counts
      else do return entry :: (← add_at timestamp value counts)

-- Search counters, not part of the count itself.
structure TemporalJohnsonStats where
  dfs_states : Nat
  closing_time_prunes : Nat
  bundled_arrival_timestamps : Nat
deriving DecidableEq, Repr

structure TemporalJohnsonResult where
  histogram : CycleHistogram
  stats : TemporalJohnsonStats

structure TemporalJohnsonState where
  search : TimedState
  stats : TemporalJohnsonStats

namespace TemporalJohnsonSearch

def start_counts (graph : GraphView) (edge : AdjacencyEntry) : Except Error TimestampBundle :=
  (List.range' edge.timestamp_begin (edge.timestamp_end - edge.timestamp_begin)).foldlM
    (fun counts timestamp_offset => add_at (timestamp_at graph.timestamps timestamp_offset) 1 counts) []

def extend_bundle (graph : GraphView) (window_end : Int) (arrivals : TimestampBundle)
    (edge : AdjacencyEntry) : Except Error TimestampBundle :=
  arrivals.foldlM (fun next_counts arrival => do
    let range ← timestamps_after graph.timestamps edge.timestamp_begin edge.timestamp_end
      arrival.timestamp window_end
    range.offsets.foldlM (fun next_counts timestamp_offset =>
      add_at (timestamp_at graph.timestamps timestamp_offset) arrival.count next_counts) next_counts) []

def closing_count (graph : GraphView) (window_end : Int) (arrivals : TimestampBundle)
    (edge : AdjacencyEntry) : Except Error Nat :=
  arrivals.foldlM (fun total arrival => do
    let range ← timestamps_after graph.timestamps edge.timestamp_begin edge.timestamp_end
      arrival.timestamp window_end
    add_count total (← multiply_count arrival.count range.size)) 0

def dfs (graph : GraphView) (max_cycle_length : Option Nat) (root : Nat) (window_end : Int) :
    Nat → Nat → TimestampBundle → TemporalJohnsonState → Search (Bool × TemporalJohnsonState)
  | 0, _, _, _ => Search.finished none
  | fuel + 1, current, arrivals, ⟨search, stats⟩ =>
      let stats := { stats with
        dfs_states := stats.dfs_states + 1
        bundled_arrival_timestamps := stats.bundled_arrival_timestamps + arrivals.length }
      match arrivals with
      | [] => return (false, ⟨search, stats⟩)
      | earliest :: _ => do
          let (reached, closing_after) ← Search.ofExcept (can_reach_root graph root window_end
            (reach_fuel graph) current earliest.timestamp search.closing_after)
          let search := { search with closing_after }
          if !reached then
            return (false,
              ⟨search, { stats with closing_time_prunes := stats.closing_time_prunes + 1 }⟩)
          else
            (graph.outgoing_row current).foldlM (fun (found_cycle, state) edge => do
              if edge.vertex = root ∧ 2 ≤ state.search.path.path.length then do
                let count ← Search.ofExcept (closing_count graph window_end arrivals edge)
                if count = 0 then return (found_cycle, state)
                else do
                  Search.increment (length_of_size state.search.path.path.length) count
                  return (true, state)
              else if state.search.path.visited edge.vertex then return (found_cycle, state)
              else if cut max_cycle_length state.search.path.path.length then
                return (found_cycle, state)
              else do
                let next_arrivals ← Search.ofExcept (extend_bundle graph window_end arrivals edge)
                if next_arrivals = [] then return (found_cycle, state)
                else do
                  let (found, state) ← dfs graph max_cycle_length root window_end fuel edge.vertex
                    next_arrivals { state with search := state.search.push edge.vertex }
                  return (found || found_cycle,
                    { state with search := state.search.pop edge.vertex })) (false, ⟨search, stats⟩)

def start (graph : GraphView) (window_width : Int) (max_cycle_length : Option Nat)
    (root first_vertex : Nat) (stats : TemporalJohnsonStats) (bundle : TimestampCount) :
    Search TemporalJohnsonStats := do
  let window_end ← Search.ofExcept (checked_window_end bundle.timestamp window_width)
  let (_, state) ← dfs graph max_cycle_length root window_end graph.vertex_count first_vertex
    [bundle] ⟨TimedState.start root first_vertex, stats⟩
  return state.stats

def run (graph : GraphView) (window_width : Int) (max_cycle_length : Option Nat) :
    Search TemporalJohnsonStats :=
  for_each_root graph.vertex_count (fun stats root =>
    (graph.outgoing_row root).foldlM (fun stats edge => do
      let counts ← Search.ofExcept (start_counts graph edge)
      counts.foldlM (start graph window_width max_cycle_length root edge.vertex) stats) stats)
    ⟨0, 0, 0⟩

end TemporalJohnsonSearch

def count_temporal_cycles_johnson_with_stats (graph : GraphView) (window_width : Int)
    (max_cycle_length : Option Nat) : Except Error TemporalJohnsonResult := do
  validate_max_cycle_length max_cycle_length
  let _ ← checked_window_end 0 window_width
  let (stats, histogram) ← TemporalJohnsonSearch.run graph window_width max_cycle_length ∅
  return ⟨histogram, stats⟩

def count_temporal_cycles_johnson (graph : GraphView) (window_width : Int)
    (max_cycle_length : Option Nat) : Except Error CycleHistogram := do
  let result ← count_temporal_cycles_johnson_with_stats graph window_width max_cycle_length
  return result.histogram

end CycleEnum.Sequential
