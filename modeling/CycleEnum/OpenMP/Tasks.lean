import CycleEnum.OpenMP.Static
import CycleEnum.Sequential.ReadTarjanClosings

namespace CycleEnum.OpenMP.Tasks

open CycleEnum.Enumeration CycleEnum.Sequential

def validate_arguments (max_cycle_length : Option Nat) (task_cutoff_depth : Nat) :
    Except Error Unit := do
  validate_max_cycle_length max_cycle_length
  if task_cutoff_depth = 0 then
    .error (.invalid_argument "task_cutoff_depth must be at least 1")
  else .ok ()

def count_subtree_serial (graph : GraphView) (max_cycle_length : Option Nat) (root : Nat) :
    Nat → PathState → Search PathState
  | 0, _ => Search.finished none
  | fuel + 1, state =>
      (graph.outgoing_row (state.path.headD 0)).foldlM (fun state edge =>
        if edge.vertex = root ∧ 2 ≤ state.path.length then do
          Search.increment (length_of_size state.path.length) 1
          return state
        else if edge.vertex ≤ root ∨ state.visited edge.vertex then return state
        else if cut max_cycle_length state.path.length then return state
        else do
          let state ← count_subtree_serial graph max_cycle_length root fuel (state.push edge.vertex)
          return state.pop edge.vertex) state

-- The body of the loop over the roots.
def count_root (graph : GraphView) (max_cycle_length : Option Nat) (root : Nat)
    (worker : StaticWorker) : Except Error StaticWorker := do
  let (state, histogram) ← count_subtree_serial graph max_cycle_length root graph.vertex_count
    (worker.reset root) worker.histogram
  return ⟨histogram, state.visited, state.path⟩

def count_single_thread (graph : GraphView) (max_cycle_length : Option Nat) :
    Except Error CycleHistogram := do
  let worker ← for_each_root graph.vertex_count (fun worker root =>
    count_root graph max_cycle_length root worker) StaticWorker.initial
  return worker.histogram

-- A call of `task_expand` with its own copies of the path and of the visited flags.
-- `edges` are those that its loop has left, none as long as it has not begun.
structure Task where
  root : Nat
  state : PathState
  edges : Option (List AdjacencyEntry)

-- One step of a task, its beginning or one round of its loop, on the histogram of
-- the thread that runs it: what is left of the task and the task that it spawned.
def task_expand (graph : GraphView) (max_cycle_length : Option Nat) (task_cutoff_depth : Nat)
    (task : Task) : Search (List Task) :=
  match task.edges with
  | none =>
      if task_cutoff_depth ≤ task.state.path.length then do
        let _ ← count_subtree_serial graph max_cycle_length task.root graph.vertex_count task.state
        return []
      else return [{ task with edges := some (graph.outgoing_row (task.state.path.headD 0)) }]
  | some [] => return []
  | some (edge :: edges) =>
      if edge.vertex = task.root ∧ 2 ≤ task.state.path.length then do
        Search.increment (length_of_size task.state.path.length) 1
        return [{ task with edges := some edges }]
      else if edge.vertex ≤ task.root ∨ task.state.visited edge.vertex then
        return [{ task with edges := some edges }]
      else if cut max_cycle_length task.state.path.length then
        return [{ task with edges := some edges }]
      else
        return [{ task with edges := some edges },
          { task with state := task.state.push edge.vertex, edges := none }]

-- The roots that the loop of the single construct reaches before its `VertexId` wraps, the
-- tasks that are not finished and the histograms of the threads.
structure Pool where
  roots : List Nat
  tasks : List Task
  locals : Nat → CycleHistogram

def Pool.initial (graph : GraphView) : Pool :=
  ⟨List.range (min graph.vertex_count (2 ^ 32)), [], fun _ => ∅⟩

-- The loop variable starts over after the last of the 2^32 roots.
def roots_after (vertex_count : Nat) (roots : List Nat) : List Nat :=
  if roots = [] ∧ 2 ^ 32 ≤ vertex_count then List.range (2 ^ 32) else roots

-- The barrier at the end of the parallel region waits for this.
def Pool.Finished (pool : Pool) : Prop := pool.roots = [] ∧ pool.tasks = []

inductive Move where
  | spawn
  | advance (thread index : Nat)

-- The single construct can spawn its next task, a thread can run any task.
def Move.Enabled (threads : Nat) (pool : Pool) (move : Move) : Prop :=
  match move with
  | spawn => pool.roots ≠ []
  | advance thread index => thread < threads ∧ index < pool.tasks.length

section Step

variable (graph : GraphView) (max_cycle_length : Option Nat) (task_cutoff_depth : Nat)

def step (pool : Pool) (move : Move) : Except Error Pool :=
  match move with
  | .spawn =>
      match pool.roots with
      | [] => .ok pool
      | root :: roots => .ok { pool with
          roots := roots_after graph.vertex_count roots
          tasks := pool.tasks ++ [⟨root, ⟨Flags.none.set root true, [root]⟩, none⟩] }
  | .advance thread index =>
      match pool.tasks[index]? with
      | none => .ok pool
      | some task => do
          let (own, histogram) ← task_expand graph max_cycle_length task_cutoff_depth task
            (pool.locals thread)
          return { pool with
            tasks := pool.tasks.eraseIdx index ++ own
            locals := Function.update pool.locals thread histogram }

def run_moves (moves : List Move) (pool : Pool) : Except Error Pool :=
  moves.foldlM (step graph max_cycle_length task_cutoff_depth) pool

-- Moves that are possible one after the other.
def IsRun (threads : Nat) : List Move → Pool → Prop
  | [], _ => True
  | move :: moves, pool => move.Enabled threads pool ∧
      ∀ next, step graph max_cycle_length task_cutoff_depth pool move = .ok next →
        IsRun threads moves next

end Step

def count_simple_cycles_read_tarjan_tasks (graph : GraphView) (available : Bool)
    (requested_threads : Int) (max_cycle_length : Option Nat) (task_cutoff_depth : Nat)
    (moves : List Move) : Outcome CycleHistogram := do
  Outcome.serial (validate_arguments max_cycle_length task_cutoff_depth)
  let threads ← resolve_thread_count available requested_threads
  if available && threads > 1 then
    let pool ← Outcome.parallel
      (run_moves graph max_cycle_length task_cutoff_depth moves (Pool.initial graph))
    Outcome.serial (CycleHistogram.merge_all ((List.range threads).map pool.locals))
  else Outcome.serial (count_single_thread graph max_cycle_length)

variable {graph : GraphView} {cap : Option Nat}

-- The subtree search is the recursive search from the last vertex of the path.
theorem count_subtree_serial_eq (root fuel current : Nat) (state : PathState)
    (h : state.path.headD 0 = current) :
    count_subtree_serial graph cap root fuel state =
      simple_dfs graph cap root fuel current state := by
  induction fuel generalizing current state with
  | zero => rfl
  | succ fuel ih =>
      have hpush : ∀ (edge : AdjacencyEntry) (state : PathState),
          count_subtree_serial graph cap root fuel (state.push edge.vertex) =
            simple_dfs graph cap root fuel edge.vertex (state.push edge.vertex) :=
        fun edge state => ih edge.vertex (state.push edge.vertex) rfl
      simp only [count_subtree_serial, simple_dfs, hpush, h]

theorem count_single_thread_eq (hw : graph.WellFormed) (hcap : ∀ limit ∈ cap, 2 ≤ limit) :
    count_single_thread graph cap = count_simple_cycles_bruteforce graph cap := by
  have hroot : count_root graph cap = OpenMP.count_root graph cap := by
    funext root worker
    rw [count_root, count_subtree_serial_eq root graph.vertex_count root (worker.reset root) rfl]
    rfl
  rw [← OpenMP.count_single_thread_eq hw hcap, count_single_thread, hroot]
  rfl

end CycleEnum.OpenMP.Tasks
