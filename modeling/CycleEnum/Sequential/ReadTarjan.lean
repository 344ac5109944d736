import CycleEnum.Sequential.BruteforceClosings
import CycleEnum.Enumeration.ReadTarjan

namespace CycleEnum.Sequential

open Enumeration

-- The edge tests in which `ReadTarjanSearch` and `ReadTarjanTimeWindowSearch`
-- differ: `next < root_` and `next <= root_` in the first, `edge_has_timestamp`
-- in the second.
structure EdgeTests where
  below_root : Nat → Bool
  at_or_below_root : Nat → Bool
  has_timestamp : AdjacencyEntry → Nat → Except Error Bool

def simple_tests (root : Nat) : EdgeTests where
  below_root next := next < root
  at_or_below_root next := next ≤ root
  has_timestamp _ _ := .ok true

def time_window_tests (graph : GraphView) (window_width : Int) (root : Nat)
    (start_timestamp : Int) : EdgeTests where
  below_root _ := false
  at_or_below_root _ := false
  has_timestamp edge current := edge_has_timestamp graph window_width root start_timestamp edge current

-- The two searches. A path lists `path.back()` first and the root last.
section Search

variable (graph : GraphView) (max_cycle_length : Option Nat) (root : Nat) (tests : EdgeTests)

def find_path_dfs (blocked : Flags) : Nat → Nat → Flags → Except Error (Option (List Nat) × Flags)
  | 0, _, _ => throw .unfinished
  | fuel + 1, vertex, visited =>
      firstSuccess (fun edge visited => do
        if !(← tests.has_timestamp edge vertex) then return (none, visited)
        else if edge.vertex = root then return (some [vertex, root], visited)
        else if tests.at_or_below_root edge.vertex ∨ visited edge.vertex ∨ blocked edge.vertex then
          return (none, visited)
        else do
          let (path, visited) ← find_path_dfs blocked fuel edge.vertex visited
          return (path.map (vertex :: ·), visited))
        (graph.outgoing_row vertex) (visited.set vertex true)

def find_path (start : Nat) (blocked : Flags) : Except Error (Option (List Nat) × Flags) := do
  let (path, visited) ← find_path_dfs graph root tests blocked graph.vertex_count start Flags.none
  return (path, if path.isSome then blocked else fun vertex => visited vertex || blocked vertex)

-- One round of the `while` loop of `follow_path` for the vertex `previous`: the
-- search for an alternate path.
def find_alternate (previous : Nat) (ahead : Option Nat) (blocked : Flags) :
    Except Error (Option (List Nat) × Flags) :=
  firstSuccess (fun edge blocked => do
    if ahead = some edge.vertex ∨ tests.at_or_below_root edge.vertex ∨ blocked edge.vertex then
      return (none, blocked)
    else if !(← tests.has_timestamp edge previous) then return (none, blocked)
    else find_path graph root tests edge.vertex blocked) (graph.outgoing_row previous) blocked

-- The `while` loop: `branch_vertex`, `current_`, `blocked`, the rest of the path
-- and the alternate path after it.
def advance : List Nat → Nat → List Nat → Flags → Except Error (Fork Nat)
  | [], _, _, _ => throw .unfinished
  | previous :: path, branch_vertex, current, blocked =>
      if previous = root then return ⟨branch_vertex, current, blocked, previous :: path, none⟩
      else do
        let (alternate_path, blocked) ←
          find_alternate graph root tests previous path.head? (blocked.set previous true)
        match alternate_path with
        | some alternate_path =>
            return ⟨previous, previous :: current, blocked, path, some alternate_path⟩
        | none => advance path previous (previous :: current) blocked

mutual

def cycles_read_tarjan : Nat → Nat → List Nat → Flags → Option (List Nat) → Option (List Nat) →
    Search Unit
  | 0, _, _, _, _, _ => Search.finished none
  | fuel + 1, edge_vertex, current, blocked_state, main_path, alternate_path => do
      let _ ← (graph.outgoing_row edge_vertex).foldlM (fun (main_path, alternate_path) edge => do
        if tests.below_root edge.vertex ∨ blocked_state edge.vertex then
          return (main_path, alternate_path)
        else if !(← Search.ofExcept (tests.has_timestamp edge edge_vertex)) then
          return (main_path, alternate_path)
        else if main_path.bind List.head? = some edge.vertex then do
          follow_path fuel edge_vertex (main_path.getD []) current blocked_state
          return (none, alternate_path)
        else if alternate_path.bind List.head? = some edge.vertex then do
          follow_path fuel edge_vertex (alternate_path.getD []) current blocked_state
          return (main_path, none)
        else do
          let (path, _) ← Search.ofExcept (find_path graph root tests edge.vertex blocked_state)
          match path with
          | none => return (main_path, alternate_path)
          | some path =>
              follow_path fuel edge_vertex path current blocked_state
              return (main_path, alternate_path)) (main_path, alternate_path)

def follow_path : Nat → Nat → List Nat → List Nat → Flags → Search Unit
  | 0, _, _, _, _ => Search.finished none
  | fuel + 1, edge_vertex, path, current, blocked => do
      let fork ← Search.ofExcept (advance graph root tests path edge_vertex current blocked)
      match fork.alternate with
      | some alternate_path =>
          cycles_read_tarjan fuel fork.vertex fork.stack fork.blocked (some fork.path)
            (some alternate_path)
      | none =>
          if max_cycle_length.all (fork.stack.length ≤ ·) then
            Search.increment (length_of_size fork.stack.length) 1

end

end Search

namespace ReadTarjanSearch

def run (graph : GraphView) (max_cycle_length : Option Nat) : Search Unit :=
  for_each_root graph.vertex_count (fun _ root =>
    cycles_read_tarjan graph max_cycle_length root (simple_tests root) (2 * graph.vertex_count) root
      [root] Flags.none none none) ()

end ReadTarjanSearch

namespace ReadTarjanTimeWindowSearch

-- The body of the loop over the start events.
def search_start (graph : GraphView) (window_width : Int) (max_cycle_length : Option Nat)
    (root : Nat) (start_edge : AdjacencyEntry) (start_timestamp : Int) : Search Unit := do
  let tests := time_window_tests graph window_width root start_timestamp
  let (path, blocked) ← Search.ofExcept (find_path graph root tests start_edge.vertex Flags.none)
  match path with
  | none => return ()
  | some path =>
      follow_path graph max_cycle_length root tests (2 * graph.vertex_count) root path [root] blocked

def run (graph : GraphView) (window_width : Int) (max_cycle_length : Option Nat) : Search Unit :=
  for_each_start graph (search_start graph window_width max_cycle_length)

end ReadTarjanTimeWindowSearch

def count_simple_cycles_read_tarjan (graph : GraphView) (max_cycle_length : Option Nat) :
    Except Error CycleHistogram := do
  validate_max_cycle_length max_cycle_length
  (ReadTarjanSearch.run graph max_cycle_length).histogram

def count_time_window_cycles_read_tarjan (graph : GraphView) (window_width : Int)
    (max_cycle_length : Option Nat) : Except Error CycleHistogram := do
  validate_max_cycle_length max_cycle_length
  (ReadTarjanTimeWindowSearch.run graph window_width max_cycle_length).histogram

end CycleEnum.Sequential
