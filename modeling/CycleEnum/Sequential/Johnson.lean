import CycleEnum.Sequential.BruteforceClosings
import CycleEnum.Enumeration.Johnson

namespace CycleEnum.Sequential

open Enumeration

-- `blocked_` and `blocked_list_`, and `path_` with its last vertex first.
structure JohnsonState where
  blocking : Blocking Nat
  path : List Nat

namespace JohnsonState

-- The state after `reset_state(root)`, or at a new root with an empty path.
def reset (path : List Nat) : JohnsonState := ⟨Blocking.none, path⟩

-- `path_.push_back(vertex); blocked_[vertex] = 1`.
def enter (state : JohnsonState) (vertex : Nat) : JohnsonState :=
  ⟨state.blocking.mark vertex true, vertex :: state.path⟩

def pop_back (state : JohnsonState) : JohnsonState := { state with path := state.path.tail }

def unblock (graph : GraphView) (vertex : Nat) (state : JohnsonState) : Search JohnsonState :=
  Search.finished
    ((state.blocking.unblock (List.range graph.vertex_count) vertex).map ({ state with blocking := · }))

-- `dependents.push_back(vertex)` unless `vertex` is among them already.
def add_dependent (vertex : Nat) (blocking : Blocking Nat) (next : Nat) : Blocking Nat :=
  if vertex ∈ blocking.blockedList next then blocking
  else blocking.setList next (vertex :: blocking.blockedList next)

end JohnsonState

-- The body of the windowed loop behind the timestamp test.
def visit_edge (max_cycle_length : Option Nat) (root : Nat)
    (circuit : Nat → JohnsonState → Search (Bool × JohnsonState)) (found_cycle : Bool)
    (state : JohnsonState) (next : Nat) : Search (Bool × JohnsonState) :=
  if next = root ∧ 2 ≤ state.path.length then do
    Search.increment (length_of_size state.path.length) 1
    return (true, state)
  else if state.blocking.blocked next then return (found_cycle, state)
  else if cut max_cycle_length state.path.length then return (found_cycle, state)
  else do
    let (found, state) ← circuit next state
    return (found_cycle || found, state)

namespace JohnsonSearch

def circuit_bounded (graph : GraphView) (max_cycle_length : Option Nat) (root : Nat) :
    Nat → Nat → JohnsonState → Search (Bool × JohnsonState)
  | 0, _, _ => Search.finished none
  | fuel + 1, vertex, state => do
      let (found_cycle, state) ← (graph.outgoing_row vertex).foldlM (fun (found_cycle, state) edge =>
        if edge.vertex = root ∧ 2 ≤ state.path.length then do
          Search.increment (length_of_size state.path.length) 1
          return (true, state)
        else if edge.vertex ≤ root ∨ state.blocking.blocked edge.vertex then return (found_cycle, state)
        else if cut max_cycle_length state.path.length then return (found_cycle, state)
        else do
          let (found, state) ← circuit_bounded graph max_cycle_length root fuel edge.vertex state
          return (found_cycle || found, state)) (false, state.enter vertex)
      return (found_cycle, ⟨state.blocking.mark vertex false, state.path.tail⟩)

def add_to_blocked_lists (graph : GraphView) (root vertex : Nat) (state : JohnsonState) :
    JohnsonState :=
  { state with blocking := (graph.outgoing_row vertex).foldl (fun blocking edge =>
      if edge.vertex ≤ root then blocking
      else JohnsonState.add_dependent vertex blocking edge.vertex) state.blocking }

def circuit (graph : GraphView) (max_cycle_length : Option Nat) (root : Nat) :
    Nat → Nat → JohnsonState → Search (Bool × JohnsonState)
  | 0, _, _ => Search.finished none
  | fuel + 1, vertex, state => do
      let (found_cycle, state) ← (graph.outgoing_row vertex).foldlM (fun (found_cycle, state) edge =>
        if edge.vertex = root ∧ 2 ≤ state.path.length then do
          Search.increment (length_of_size state.path.length) 1
          return (true, state)
        else if edge.vertex ≤ root ∨ state.blocking.blocked edge.vertex then return (found_cycle, state)
        else if cut max_cycle_length state.path.length then return (found_cycle, state)
        else do
          let (found, state) ← circuit graph max_cycle_length root fuel edge.vertex state
          return (found_cycle || found, state)) (false, state.enter vertex)
      let state ←
        if found_cycle then state.unblock graph vertex
        else pure (add_to_blocked_lists graph root vertex state)
      return (found_cycle, state.pop_back)

def run (graph : GraphView) (max_cycle_length : Option Nat) : Search Unit :=
  for_each_root graph.vertex_count (fun _ root => do
    let _ ←
      if max_cycle_length.isSome then
        circuit_bounded graph max_cycle_length root graph.vertex_count root (JohnsonState.reset [])
      else circuit graph max_cycle_length root graph.vertex_count root (JohnsonState.reset [])) ()

end JohnsonSearch

namespace JohnsonTimeWindowSearch

def add_to_blocked_lists (graph : GraphView) (window_width : Int) (root : Nat)
    (start_timestamp : Int) (vertex : Nat) (state : JohnsonState) : Except Error JohnsonState := do
  let blocking ← (graph.outgoing_row vertex).foldlM (fun blocking edge => do
    if edge.vertex = root then return blocking
    else if !(← edge_has_timestamp graph window_width root start_timestamp edge vertex) then
      return blocking
    else return JohnsonState.add_dependent vertex blocking edge.vertex) state.blocking
  return { state with blocking }

def circuit (graph : GraphView) (window_width : Int) (max_cycle_length : Option Nat) (root : Nat)
    (start_timestamp : Int) : Nat → Nat → JohnsonState → Search (Bool × JohnsonState)
  | 0, _, _ => Search.finished none
  | fuel + 1, vertex, state => do
      let (found_cycle, state) ← (graph.outgoing_row vertex).foldlM (fun (found_cycle, state) edge => do
        let admitted ← Search.ofExcept
          (edge_has_timestamp graph window_width root start_timestamp edge vertex)
        if !admitted then return (found_cycle, state)
        else
          visit_edge max_cycle_length root
            (circuit graph window_width max_cycle_length root start_timestamp fuel) found_cycle state
            edge.vertex) (false, state.enter vertex)
      let state ←
        if found_cycle then state.unblock graph vertex
        else
          Search.ofExcept
            (add_to_blocked_lists graph window_width root start_timestamp vertex state)
      return (found_cycle, state.pop_back)

def run (graph : GraphView) (window_width : Int) (max_cycle_length : Option Nat) : Search Unit :=
  for_each_start graph fun root start_edge start_timestamp => do
    let _ ← circuit graph window_width max_cycle_length root start_timestamp graph.vertex_count
      start_edge.vertex (JohnsonState.reset [root])

end JohnsonTimeWindowSearch

def count_simple_cycles_johnson (graph : GraphView) (max_cycle_length : Option Nat) :
    Except Error CycleHistogram := do
  validate_max_cycle_length max_cycle_length
  (JohnsonSearch.run graph max_cycle_length).histogram

def count_time_window_cycles_johnson (graph : GraphView) (window_width : Int)
    (max_cycle_length : Option Nat) : Except Error CycleHistogram := do
  validate_max_cycle_length max_cycle_length
  (JohnsonTimeWindowSearch.run graph window_width max_cycle_length).histogram

end CycleEnum.Sequential
