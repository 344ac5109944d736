import CycleEnum.Core.GraphView
import CycleEnum.Core.Search
import CycleEnum.Enumeration.Closings

namespace CycleEnum.Sequential

open Enumeration (cut)

def validate_max_cycle_length (max_cycle_length : Option Nat) : Except Error Unit :=
  if max_cycle_length.any (· < 2) then
    .error (.invalid_argument "max_cycle_length must be at least 2")
  else .ok ()

def validate_window_width (window_width : Int) : Except Error Unit :=
  if window_width < 0 then
    .error (.invalid_argument "time window width must be non-negative")
  else .ok ()

-- The visited flags and the path of a search, its last vertex first.
structure PathState where
  visited : Flags
  path : List Nat

namespace PathState

def push (state : PathState) (vertex : Nat) : PathState :=
  ⟨state.visited.set vertex true, vertex :: state.path⟩

def pop (state : PathState) (vertex : Nat) : PathState :=
  ⟨state.visited.set vertex false, state.path.tail⟩

-- The state at the start edge of a windowed or temporal search.
def start (root first_vertex : Nat) : PathState :=
  ⟨(Flags.none.set root true).set first_vertex true, [first_vertex, root]⟩

end PathState

-- The test `max_cycle_length.has_value() && path.size() >= *max_cycle_length`
-- is `cut max_cycle_length path.length` throughout.
def simple_dfs (graph : GraphView) (max_cycle_length : Option Nat) (root : Nat) :
    Nat → Nat → PathState → Search PathState
  | 0, _, _ => Search.finished none
  | fuel + 1, current, state =>
      (graph.outgoing_row current).foldlM (fun state edge =>
        if edge.vertex = root ∧ 2 ≤ state.path.length then do
          Search.increment (length_of_size state.path.length) 1
          return state
        else if edge.vertex ≤ root ∨ state.visited edge.vertex then return state
        else if cut max_cycle_length state.path.length then return state
        else do
          let state ← simple_dfs graph max_cycle_length root fuel edge.vertex (state.push edge.vertex)
          return state.pop edge.vertex) state

def count_simple_cycles_bruteforce (graph : GraphView) (max_cycle_length : Option Nat) :
    Except Error CycleHistogram := do
  validate_max_cycle_length max_cycle_length
  Search.histogram do
    let _ ← for_each_root graph.vertex_count (fun visited root => do
      let state ← simple_dfs graph max_cycle_length root graph.vertex_count root
        ⟨visited.set root true, [root]⟩
      return state.visited.set root false) Flags.none

-- The windowed edge test, the same in every time-window search.
def edge_has_timestamp (graph : GraphView) (window_width : Int) (root : Nat)
    (start_timestamp : Int) (edge : AdjacencyEntry) (current : Nat) : Except Error Bool :=
  has_timestamp_in_window graph.timestamps edge.timestamp_begin edge.timestamp_end start_timestamp
    window_width (if root > current then .Inclusive else .AfterStart)

def time_window_dfs (graph : GraphView) (window_width : Int) (max_cycle_length : Option Nat)
    (root : Nat) (start_timestamp : Int) : Nat → Nat → PathState → Search PathState
  | 0, _, _ => Search.finished none
  | fuel + 1, current, state =>
      (graph.outgoing_row current).foldlM (fun state edge => do
        let admitted ← Search.ofExcept
          (edge_has_timestamp graph window_width root start_timestamp edge current)
        if !admitted then return state
        else if edge.vertex = root ∧ 2 ≤ state.path.length then do
          Search.increment (length_of_size state.path.length) 1
          return state
        else if state.visited edge.vertex then return state
        else if cut max_cycle_length state.path.length then return state
        else do
          let state ← time_window_dfs graph window_width max_cycle_length root start_timestamp fuel
            edge.vertex (state.push edge.vertex)
          return state.pop edge.vertex) state

-- The loops over the roots, their edges and the timestamps of these.
def for_each_start (graph : GraphView)
    (visit : Nat → AdjacencyEntry → Int → Search Unit) : Search Unit :=
  for_each_root graph.vertex_count (fun _ root =>
    (graph.outgoing_row root).forM fun start_edge =>
      (List.range' start_edge.timestamp_begin
        (start_edge.timestamp_end - start_edge.timestamp_begin)).forM fun offset =>
        visit root start_edge (timestamp_at graph.timestamps offset)) ()

def count_time_window_cycles_bruteforce (graph : GraphView) (window_width : Int)
    (max_cycle_length : Option Nat) : Except Error CycleHistogram := do
  validate_max_cycle_length max_cycle_length
  validate_window_width window_width
  Search.histogram <| for_each_start graph fun root start_edge start_timestamp => do
    let _ ← time_window_dfs graph window_width max_cycle_length root start_timestamp
      graph.vertex_count start_edge.vertex (PathState.start root start_edge.vertex)

def temporal_dfs (graph : GraphView) (max_cycle_length : Option Nat) (root : Nat)
    (window_end : Int) : Nat → Nat → Int → PathState → Search PathState
  | 0, _, _, _ => Search.finished none
  | fuel + 1, current, previous_timestamp, state =>
      (graph.outgoing_row current).foldlM (fun state edge => do
        let range ← Search.ofExcept (timestamps_after graph.timestamps edge.timestamp_begin
          edge.timestamp_end previous_timestamp window_end)
        if range.empty then return state
        else if edge.vertex = root ∧ 2 ≤ state.path.length then do
          Search.increment (length_of_size state.path.length) range.size
          return state
        else if state.visited edge.vertex then return state
        else if cut max_cycle_length state.path.length then return state
        else do
          let state ← range.offsets.foldlM (fun state next_timestamp_offset =>
            temporal_dfs graph max_cycle_length root window_end fuel edge.vertex
              (timestamp_at graph.timestamps next_timestamp_offset) state) (state.push edge.vertex)
          return state.pop edge.vertex) state

def count_temporal_cycles_bruteforce (graph : GraphView) (window_width : Int)
    (max_cycle_length : Option Nat) : Except Error CycleHistogram := do
  validate_max_cycle_length max_cycle_length
  validate_window_width window_width
  Search.histogram <| for_each_start graph fun root start_edge start_timestamp => do
    let window_end ← Search.ofExcept (checked_window_end start_timestamp window_width)
    let _ ← temporal_dfs graph max_cycle_length root window_end graph.vertex_count
      start_edge.vertex start_timestamp (PathState.start root start_edge.vertex)

end CycleEnum.Sequential
