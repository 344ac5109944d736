import CycleEnum.OpenMP.Tasks

namespace CycleEnum.OpenMP.Tasks

open CycleEnum.Enumeration CycleEnum.Sequential

variable {graph : GraphView} {cap : Option Nat} {cutoff threads : Nat}

-- The copies that a task owns are those of a path of the search.
structure Task.Valid (graph : GraphView) (task : Task) : Prop where
  state_eq : task.state = PathState.at task.state.path
  on_path : OnPath graph task.root task.state.path
  edges_mem : ∀ edges ∈ task.edges, ∀ edge ∈ edges,
    edge ∈ graph.outgoing_row (task.state.path.headD 0)

-- What the closings of a path gain by one of its edges.
def edge_closings (graph : GraphView) (cap : Option Nat) (root : Nat) (path : List Nat)
    (edge : AdjacencyEntry) : List (List Nat) :=
  if root ≤ edge.vertex then branch root cap path (fun next =>
    closings (static_successors graph root) root cap graph.vertex_count (next :: path)) edge.vertex
  else []

-- The closings that a task and the tasks below it have yet to find.
def Task.pending (graph : GraphView) (cap : Option Nat) (task : Task) : List (List Nat) :=
  match task.edges with
  | none => closings (static_successors graph task.root) task.root cap graph.vertex_count
      task.state.path
  | some edges => edges.flatMap (edge_closings graph cap task.root task.state.path)

-- A bound on the steps of a task and of the tasks below it.
def work_from (graph : GraphView) : Nat → Nat
  | 0 => 1
  | depth + 1 => 2 + graph.outgoing_edges.length * (work_from graph depth + 1)

def Task.work (graph : GraphView) (task : Task) : Nat :=
  match task.edges with
  | none => work_from graph (graph.vertex_count + 1 - task.state.path.length)
  | some edges =>
      1 + edges.length * (work_from graph (graph.vertex_count - task.state.path.length) + 1)

theorem work_from_pos (graph : GraphView) (depth : Nat) : 0 < work_from graph depth := by
  cases depth with
  | zero => exact Nat.one_pos
  | succ depth =>
      rw [work_from]
      omega

theorem outgoing_row_length_le (graph : GraphView) (v : Nat) :
    (graph.outgoing_row v).length ≤ graph.outgoing_edges.length := by
  rw [GraphView.outgoing_row, narrow_row, List.extract_eq_take_drop, List.length_take, List.length_drop]
  omega

-- A path that is not searched yet has the closings of all its edges ahead.
theorem closings_edges (hw : graph.WellFormed) {root v : Nat} {below : List Nat}
    (h : OnPath graph root (v :: below)) :
    closings (static_successors graph root) root cap graph.vertex_count (v :: below) =
      (graph.outgoing_row v).flatMap (edge_closings graph cap root (v :: below)) :=
  closings_outgoing_row hw cap h

section Edge

variable {root : Nat} {path : List Nat} {edge : AdjacencyEntry}

theorem edge_closings_close (hr : edge.vertex = root) :
    edge_closings graph cap root path edge = [path] := by
  rw [edge_closings, if_pos (Nat.le_of_eq hr.symm), branch_root hr]

theorem edge_closings_skip (hr : edge.vertex ≠ root)
    (h : edge.vertex ≤ root ∨ edge.vertex ∈ path ∨ cut cap path.length = true) :
    edge_closings graph cap root path edge = [] := by
  rw [edge_closings]
  rcases h with hlow | hskip
  · rw [if_neg (by omega)]
  · rw [branch_skip hr hskip, ite_self]

theorem edge_closings_enter
    (h : ¬(edge.vertex ≤ root ∨ edge.vertex ∈ path ∨ cut cap path.length = true)) :
    edge_closings graph cap root path edge =
      closings (static_successors graph root) root cap graph.vertex_count (edge.vertex :: path) := by
  obtain ⟨hlow, hm, hc⟩ : ¬edge.vertex ≤ root ∧ edge.vertex ∉ path ∧ ¬cut cap path.length = true := by
    simpa only [not_or] using h
  rw [edge_closings, if_pos (by omega), branch_enter (by omega) hm (Bool.eq_false_iff.mpr hc)]

end Edge

theorem task_expand_begin (root v : Nat) (below : List Nat) :
    task_expand graph cap cutoff ⟨root, PathState.at (v :: below), none⟩ =
      if cutoff ≤ (v :: below).length then do
        let _ ← simple_dfs graph cap root graph.vertex_count v (PathState.at (v :: below))
        return []
      else return [⟨root, PathState.at (v :: below), some (graph.outgoing_row v)⟩] := by
  rw [← count_subtree_serial_eq root graph.vertex_count v _ rfl]
  rfl

-- One round of the loop of a task: a cycle, nothing, or a task for the edge.
theorem task_expand_edge (root : Nat) (path : List Nat) (edge : AdjacencyEntry)
    (edges : List AdjacencyEntry) :
    task_expand graph cap cutoff ⟨root, PathState.at path, some (edge :: edges)⟩ =
      if edge.vertex = root ∧ 2 ≤ path.length then do
        Search.increment (length_of_size path.length) 1
        return [⟨root, PathState.at path, some edges⟩]
      else if edge.vertex ≤ root ∨ decide (edge.vertex ∈ path) then
        return [⟨root, PathState.at path, some edges⟩]
      else if cut cap path.length then return [⟨root, PathState.at path, some edges⟩]
      else return [⟨root, PathState.at path, some edges⟩,
        ⟨root, PathState.at (edge.vertex :: path), none⟩] := by
  rw [← PathState.push_at]
  rfl

theorem task_expand_skip {root : Nat} {path : List Nat} {edge : AdjacencyEntry}
    (edges : List AdjacencyEntry) (hr : edge.vertex ≠ root)
    (h : edge.vertex ≤ root ∨ edge.vertex ∈ path ∨ cut cap path.length = true) :
    task_expand graph cap cutoff ⟨root, PathState.at path, some (edge :: edges)⟩ =
      return [⟨root, PathState.at path, some edges⟩] := by
  rw [task_expand_edge, if_neg fun hc => hr hc.1]
  by_cases hseen : edge.vertex ≤ root ∨ decide (edge.vertex ∈ path) = true
  · rw [if_pos hseen]
  · obtain ⟨hlow, hm⟩ := not_or.mp hseen
    rw [decide_eq_true_eq] at hm
    rw [if_neg hseen, if_pos ((h.resolve_left hlow).resolve_left hm)]

theorem task_expand_enter {root : Nat} {path : List Nat} {edge : AdjacencyEntry}
    (edges : List AdjacencyEntry)
    (h : ¬(edge.vertex ≤ root ∨ edge.vertex ∈ path ∨ cut cap path.length = true)) :
    task_expand graph cap cutoff ⟨root, PathState.at path, some (edge :: edges)⟩ =
      return [⟨root, PathState.at path, some edges⟩,
        ⟨root, PathState.at (edge.vertex :: path), none⟩] := by
  obtain ⟨hlow, hm, hc⟩ : ¬edge.vertex ≤ root ∧ edge.vertex ∉ path ∧ ¬cut cap path.length = true := by
    simpa only [not_or] using h
  have hseen : ¬(edge.vertex ≤ root ∨ decide (edge.vertex ∈ path) = true) :=
    not_or.mpr ⟨hlow, by rwa [decide_eq_true_eq]⟩
  rw [task_expand_edge, if_neg fun hr => hlow (Nat.le_of_eq hr.1), if_neg hseen, if_neg hc]

-- One step of a task on the histogram of any thread.
structure Expands (graph : GraphView) (cap : Option Nat) (cutoff : Nat) (task : Task)
    (own : List Task) (found : List (List Nat)) : Prop where
  emits : (task_expand graph cap cutoff task).Emits own (found.map closing_event)
  valid : ∀ other ∈ own, other.Valid graph
  parts : (task.pending graph cap).Perm (found ++ own.flatMap (Task.pending graph cap))
  less : (own.map (Task.work graph)).sum < task.work graph

-- The beginning of a task: the whole subtree below the cutoff, its edges above.
theorem expands_begin (hw : graph.WellFormed) {root v : Nat} {below : List Nat}
    (h : OnPath graph root (v :: below)) :
    ∃ own found, Expands graph cap cutoff ⟨root, PathState.at (v :: below), none⟩ own found := by
  by_cases hcutoff : cutoff ≤ (v :: below).length
  · refine ⟨[], closings (static_successors graph root) root cap graph.vertex_count (v :: below),
      ?_, by simp, by simp [Task.pending, PathState.at], ?_⟩
    · rw [task_expand_begin, if_pos hcutoff]
      exact (simple_dfs_emits cap hw root graph.vertex_count v below h (by simp)).then
        (Search.emits_pure _)
    · exact work_from_pos graph _
  · refine ⟨[⟨root, PathState.at (v :: below), some (graph.outgoing_row v)⟩], [], ?_, ?_, ?_, ?_⟩
    · rw [task_expand_begin, if_neg hcutoff]
      exact Search.emits_pure _
    · intro other ho
      obtain rfl := List.mem_singleton.mp ho
      exact ⟨rfl, h, fun edges he edge hm => by
        obtain rfl := Option.some.inj he
        exact hm⟩
    · simp only [Task.pending, List.nil_append, List.flatMap_cons, List.flatMap_nil, List.append_nil]
      exact List.Perm.of_eq (closings_edges hw h)
    · have hrow := outgoing_row_length_le graph v
      have hlen := h.length_le
      have hdepth : graph.vertex_count + 1 - (v :: below).length =
          graph.vertex_count - (v :: below).length + 1 := by omega
      have hmul := Nat.mul_le_mul_right
        (work_from graph (graph.vertex_count - (v :: below).length) + 1) hrow
      simp only [Task.work, PathState.at, List.map_cons, List.map_nil, List.sum_cons, List.sum_nil]
      rw [hdepth, work_from]
      omega

theorem expands_edge (hw : graph.WellFormed) {root v : Nat} {below : List Nat}
    (h : OnPath graph root (v :: below)) {edge : AdjacencyEntry} {edges : List AdjacencyEntry}
    (he : ∀ other ∈ edge :: edges, other ∈ graph.outgoing_row v) :
    ∃ own found, Expands graph cap cutoff ⟨root, PathState.at (v :: below), some (edge :: edges)⟩
      own found := by
  have hnext := (hw.bounded v edge (he edge (by simp))).2
  have hpath : (PathState.at (v :: below)).path = v :: below := rfl
  let rest : Task := ⟨root, PathState.at (v :: below), some edges⟩
  have hrest : rest.Valid graph := ⟨rfl, h, fun others ho other hm => by
    obtain rfl := Option.some.inj ho
    exact he other (List.mem_cons_of_mem _ hm)⟩
  have hless : rest.work graph < Task.work graph
      ⟨root, PathState.at (v :: below), some (edge :: edges)⟩ := by
    simp only [rest, Task.work, List.length_cons, Nat.succ_mul]
    omega
  -- without a task for the edge
  have hown : ∀ found, (task_expand graph cap cutoff
      ⟨root, PathState.at (v :: below), some (edge :: edges)⟩).Emits [rest]
        (found.map closing_event) → edge_closings graph cap root (v :: below) edge = found →
      Expands graph cap cutoff ⟨root, PathState.at (v :: below), some (edge :: edges)⟩ [rest]
        found := by
    intro found hemits hfound
    refine ⟨hemits, ?_, ?_, by simpa using hless⟩
    · intro other ho
      obtain rfl := List.mem_singleton.mp ho
      exact hrest
    · simp only [Task.pending, rest, List.flatMap_cons, List.flatMap_nil, List.append_nil, hpath,
        hfound]
      exact .refl _
  have hno_loop : edge.vertex = root → 2 ≤ (v :: below).length := fun hr =>
    h.two_le fun hv => hw.no_loop v edge (he edge (by simp)) (hr.trans hv.symm)
  by_cases hr : edge.vertex = root
  · refine ⟨[rest], [v :: below], hown _ ?_ (edge_closings_close hr)⟩
    rw [task_expand_edge, if_pos ⟨hr, hno_loop hr⟩]
    exact (Search.emits_increment _ 1).then (Search.emits_pure _)
  by_cases hskip : edge.vertex ≤ root ∨ edge.vertex ∈ v :: below ∨ cut cap (v :: below).length = true
  · refine ⟨[rest], [], hown _ ?_ (edge_closings_skip hr hskip)⟩
    rw [task_expand_skip edges hr hskip]
    exact Search.emits_pure _
  -- a task for the edge
  have hm : edge.vertex ∉ v :: below := fun hm => hskip (Or.inr (Or.inl hm))
  have hpush := h.push hm (List.mem_range.mpr hnext)
  refine ⟨[rest, ⟨root, PathState.at (edge.vertex :: v :: below), none⟩], [], ?_, ?_, ?_, ?_⟩
  · rw [task_expand_enter edges hskip]
    exact Search.emits_pure _
  · intro other ho
    rcases List.mem_cons.mp ho with rfl | ho
    · exact hrest
    · obtain rfl := List.mem_singleton.mp ho
      exact ⟨rfl, hpush, by simp⟩
  · simp only [Task.pending, rest, List.flatMap_cons, List.flatMap_nil, List.append_nil,
      List.nil_append, hpath, edge_closings_enter hskip]
    exact List.perm_append_comm
  · have hdepth : graph.vertex_count + 1 - (edge.vertex :: v :: below).length =
        graph.vertex_count - (v :: below).length := by
      simp only [List.length_cons]
      omega
    have hchild : Task.work graph ⟨root, PathState.at (edge.vertex :: v :: below), none⟩ =
        work_from graph (graph.vertex_count - (v :: below).length) := by
      rw [← hdepth]
      rfl
    simp only [List.map_cons, List.map_nil, List.sum_cons, List.sum_nil, hchild]
    simp only [rest, Task.work, hpath, List.length_cons, Nat.succ_mul]
    omega

theorem task_expand_spec (hw : graph.WellFormed) {task : Task} (h : task.Valid graph) :
    ∃ own found, Expands graph cap cutoff task own found := by
  obtain ⟨root, state, edges⟩ := task
  obtain ⟨hstate, hpath, hedges⟩ := h
  obtain ⟨v, below, hcons⟩ := List.exists_cons_of_ne_nil (List.ne_nil_of_mem hpath.root_mem)
  dsimp only at hstate hpath hedges hcons
  rw [hcons] at hstate hpath hedges
  subst hstate
  match edges with
  | none => exact expands_begin hw hpath
  | some [] =>
      refine ⟨[], [], Search.emits_pure _, by simp, by simp [Task.pending], ?_⟩
      simp [Task.work]
  | some (edge :: edges) => exact expands_edge hw hpath (hedges _ rfl)

-- All cycles, each as the path that it closes.
def all_closings (graph : GraphView) (cap : Option Nat) : List (List Nat) :=
  (List.range graph.vertex_count).flatMap (static_closings graph cap)

theorem all_closings_events (graph : GraphView) (cap : Option Nat) :
    (all_closings graph cap).map closing_event = static_events graph cap := by
  rw [all_closings, List.map_flatMap, static_events]

def Pool.pending (graph : GraphView) (cap : Option Nat) (pool : Pool) : List (List Nat) :=
  pool.tasks.flatMap (Task.pending graph cap) ++ pool.roots.flatMap (static_closings graph cap)

def Pool.work (graph : GraphView) (pool : Pool) : Nat :=
  pool.roots.length * (work_from graph graph.vertex_count + 1) +
    (pool.tasks.map (Task.work graph)).sum

-- What the threads have found and what is pending are all cycles, each once.
structure Pool.Splits (graph : GraphView) (cap : Option Nat) (threads : Nat) (pool : Pool)
    (found : Nat → List (List Nat)) : Prop where
  valid : ∀ task ∈ pool.tasks, task.Valid graph
  roots_lt : ∀ root ∈ pool.roots, root < graph.vertex_count
  recorded : ∀ thread,
    (∅ : CycleHistogram).record ((found thread).map closing_event) = .ok (pool.locals thread)
  whole : ((List.range threads).flatMap found ++ pool.pending graph cap).Perm
    (all_closings graph cap)

theorem roots_after_eq {vertex_count : Nat} (hcount : vertex_count < 2 ^ 32) (roots : List Nat) :
    roots_after vertex_count roots = roots :=
  if_neg fun h => Nat.not_le_of_lt hcount h.2

theorem initial_roots (hcount : graph.vertex_count < 2 ^ 32) :
    Pool.initial graph = ⟨List.range graph.vertex_count, [], fun _ => ∅⟩ := by
  rw [Pool.initial, Nat.min_eq_left (Nat.le_of_lt hcount)]

theorem splits_initial (hcount : graph.vertex_count < 2 ^ 32) (cap : Option Nat) (threads : Nat) :
    (Pool.initial graph).Splits graph cap threads fun _ => [] := by
  rw [initial_roots hcount]
  refine ⟨by simp, fun root hr => List.mem_range.mp hr, fun _ => rfl, ?_⟩
  rw [List.flatMap_eq_nil_iff.mpr fun _ _ => rfl]
  exact .refl _

-- From 2^32 vertices on the single construct never runs out of roots.
theorem step_endless (hcount : 2 ^ 32 ≤ graph.vertex_count) {pool next : Pool} {move : Move}
    (hroots : pool.roots ≠ []) (h : step graph cap cutoff pool move = .ok next) :
    next.roots ≠ [] := by
  obtain ⟨roots, tasks, locals⟩ := pool
  obtain ⟨root, roots, rfl⟩ := List.exists_cons_of_ne_nil hroots
  cases move with
  | spawn =>
      obtain rfl := Except.ok.inj h
      change roots_after graph.vertex_count roots ≠ []
      unfold roots_after
      split_ifs with hwrap
      · exact List.ne_nil_of_mem (List.mem_range.mpr (show 0 < 2 ^ 32 by decide))
      · exact fun hnil => hwrap ⟨hnil, hcount⟩
  | advance thread index =>
      rw [step] at h
      cases hi : tasks[index]? with
      | none =>
          simp only [hi] at h
          obtain rfl := Except.ok.inj h
          exact hroots
      | some task =>
          simp only [hi] at h
          obtain ⟨result, -, hnext⟩ := bind_ok h
          obtain rfl := Except.ok.inj hnext
          exact hroots

theorem run_moves_endless (hcount : 2 ^ 32 ≤ graph.vertex_count) {pool last : Pool}
    {moves : List Move} (hroots : pool.roots ≠ [])
    (h : run_moves graph cap cutoff moves pool = .ok last) : last.roots ≠ [] := by
  induction moves generalizing pool with
  | nil =>
      obtain rfl := Except.ok.inj h
      exact hroots
  | cons move moves ih =>
      rw [run_moves, List.foldlM_cons] at h
      obtain ⟨next, hnext, hrest⟩ := bind_ok h
      exact ih (step_endless hcount hroots hnext) hrest

theorem initial_endless (hcount : 2 ^ 32 ≤ graph.vertex_count) : (Pool.initial graph).roots ≠ [] :=
  List.ne_nil_of_mem (List.mem_range.mpr (show 0 < min graph.vertex_count (2 ^ 32) by omega))
theorem Pool.Splits.spawn (hcount : graph.vertex_count < 2 ^ 32) {pool : Pool} {found : Nat → List (List Nat)}
    (h : pool.Splits graph cap threads found) (hroots : pool.roots ≠ []) :
    ∃ next, step graph cap cutoff pool .spawn = .ok next ∧
      next.Splits graph cap threads found ∧ next.work graph < pool.work graph := by
  obtain ⟨roots, tasks, locals⟩ := pool
  obtain ⟨root, roots, rfl⟩ := List.exists_cons_of_ne_nil hroots
  have hstart : (⟨Flags.none.set root true, [root]⟩ : PathState) = PathState.at [root] :=
    PathState.push_at [] root
  have hroot := h.roots_lt root (by simp)
  have hstep : step graph cap cutoff ⟨root :: roots, tasks, locals⟩ .spawn = .ok ⟨roots,
      tasks ++ [⟨root, ⟨Flags.none.set root true, [root]⟩, none⟩], locals⟩ := by
    simp only [step, roots_after_eq hcount]
  refine ⟨_, hstep, ⟨fun task ht => ?_,
    fun other ho => h.roots_lt other (List.mem_cons_of_mem _ ho), h.recorded, ?_⟩, ?_⟩
  · rcases List.mem_append.mp ht with ht | ht
    · exact h.valid task ht
    · obtain rfl := List.mem_singleton.mp ht
      exact ⟨hstart, on_path_root hroot, by simp⟩
  · have hwhole := h.whole
    simp only [Pool.pending, List.flatMap_append, List.flatMap_cons, List.flatMap_nil,
      List.append_nil, List.append_assoc] at hwhole ⊢
    exact hwhole
  · simp only [Pool.work, List.length_cons, Nat.succ_mul, List.map_append, List.map_cons,
      List.map_nil, List.sum_append, List.sum_cons, List.sum_nil]
    have hwork : Task.work graph ⟨root, ⟨Flags.none.set root true, [root]⟩, none⟩ =
        work_from graph graph.vertex_count := rfl
    rw [hwork]
    omega

theorem found_subperm {found : Nat → List (List Nat)} {rest all : List (List Nat)}
    (h : ((List.range threads).flatMap found ++ rest).Perm all) {thread : Nat}
    (ht : thread < threads) : (found thread).Subperm all := by
  have hsub : (found thread).Sublist ((List.range threads).flatMap found) :=
    List.sublist_flatten_of_mem (List.mem_map_of_mem (List.mem_range.mpr ht))
  exact (hsub.trans (List.sublist_append_left _ _)).subperm.trans h.subperm

-- A step moves cycles from what is pending to what its thread has found.
theorem Pool.Splits.handover {pool : Pool} {found : Nat → List (List Nat)}
    (h : pool.Splits graph cap threads found) {thread index : Nat} (ht : thread < threads)
    (hi : index < pool.tasks.length) {own : List Task} {more : List (List Nat)}
    (hexpand : Expands graph cap cutoff pool.tasks[index] own more) :
    ((List.range threads).flatMap (Function.update found thread (found thread ++ more)) ++
      ((pool.tasks.eraseIdx index ++ own).flatMap (Task.pending graph cap) ++
        pool.roots.flatMap (static_closings graph cap))).Perm (all_closings graph cap) := by
  have hgroup : ((List.range threads).flatMap
      (Function.update found thread (found thread ++ more))).Perm
        (more ++ (List.range threads).flatMap found) :=
    perm_flatMap_group List.nodup_range (List.mem_range.mpr ht)
      (by rw [Function.update_self]; exact List.perm_append_comm)
      fun k hk => Function.update_of_ne hk _ _
  have hpending : (pool.tasks.flatMap (Task.pending graph cap)).Perm
      (more ++ (pool.tasks.eraseIdx index ++ own).flatMap (Task.pending graph cap)) := by
    refine ((List.getElem_cons_eraseIdx_perm hi).symm.flatMap_right _).trans ?_
    rw [List.flatMap_cons, List.flatMap_append]
    refine (hexpand.parts.append_right _).trans ?_
    rw [List.append_assoc]
    exact List.perm_append_comm.append_left more
  refine List.Perm.trans ?_ h.whole
  refine List.Perm.trans ?_ ((hpending.symm.append_right _).append_left _)
  refine ((hgroup.trans List.perm_append_comm).append_right _).trans ?_
  simp only [List.append_assoc]
  exact .refl _

theorem step_advance_eq {pool : Pool} {thread index : Nat} (hi : index < pool.tasks.length)
    {own : List Task} {more : List (List Nat)}
    (hexpand : Expands graph cap cutoff pool.tasks[index] own more) :
    step graph cap cutoff pool (.advance thread index) =
      ((pool.locals thread).record (more.map closing_event)).map fun histogram =>
        ⟨pool.roots, pool.tasks.eraseIdx index ++ own,
          Function.update pool.locals thread histogram⟩ := by
  rw [step, List.getElem?_eq_getElem hi]
  simp only [hexpand.emits (pool.locals thread)]
  cases (pool.locals thread).record (more.map closing_event) with
  | error error => rfl
  | ok histogram => rfl

theorem Pool.Splits.advance {pool : Pool} {found : Nat → List (List Nat)}
    (h : pool.Splits graph cap threads found) {thread index : Nat} (ht : thread < threads)
    (hi : index < pool.tasks.length) {own : List Task} {more : List (List Nat)}
    (hexpand : Expands graph cap cutoff pool.tasks[index] own more) {histogram : CycleHistogram}
    (hrecord : (pool.locals thread).record (more.map closing_event) = .ok histogram) :
    Pool.Splits graph cap threads ⟨pool.roots, pool.tasks.eraseIdx index ++ own,
      Function.update pool.locals thread histogram⟩
        (Function.update found thread (found thread ++ more)) := by
  refine ⟨fun task hm => ?_, h.roots_lt, fun other => ?_, h.handover ht hi hexpand⟩
  · rcases List.mem_append.mp hm with hm | hm
    · exact h.valid task (List.mem_of_mem_eraseIdx hm)
    · exact hexpand.valid task hm
  · by_cases ho : other = thread
    · subst ho
      simp only [Function.update_self]
      rw [List.map_append, CycleHistogram.record_append, h.recorded]
      exact hrecord
    · simpa only [Function.update_of_ne ho] using h.recorded other

-- A move that goes through keeps the split and leaves less work.
theorem Pool.Splits.step_ok (hw : graph.WellFormed) {pool next : Pool}
    {found : Nat → List (List Nat)} (h : pool.Splits graph cap threads found) {move : Move}
    (he : move.Enabled threads pool) (hnext : step graph cap cutoff pool move = .ok next) :
    ∃ found', next.Splits graph cap threads found' ∧ next.work graph < pool.work graph := by
  cases move with
  | spawn =>
      obtain ⟨other, ho, hsplits, hless⟩ : ∃ other, step graph cap cutoff pool .spawn = .ok other ∧
          other.Splits graph cap threads found ∧ other.work graph < pool.work graph := h.spawn hw.counted he
      obtain rfl := Except.ok.inj (ho.symm.trans hnext)
      exact ⟨found, hsplits, hless⟩
  | advance thread index =>
      obtain ⟨ht, hi⟩ := he
      obtain ⟨own, more, hexpand⟩ :
          ∃ own found, Expands graph cap cutoff pool.tasks[index] own found :=
        task_expand_spec hw (h.valid pool.tasks[index] (List.getElem_mem hi))
      rw [step_advance_eq hi hexpand] at hnext
      cases hrecord : (pool.locals thread).record (more.map closing_event) with
      | error error => simp [hrecord, Except.map] at hnext
      | ok histogram =>
          rw [hrecord] at hnext
          obtain rfl := Except.ok.inj hnext
          refine ⟨_, h.advance ht hi hexpand hrecord, ?_⟩
          have hsum := ((List.getElem_cons_eraseIdx_perm hi).map (Task.work graph)).sum_eq
          have hless := hexpand.less
          simp only [Pool.work, List.map_append, List.sum_append, ← hsum, List.map_cons,
            List.sum_cons]
          omega

-- Where the counts of all cycles fit, those of one thread do.
theorem Pool.Splits.step_exists (hw : graph.WellFormed) {histogram : CycleHistogram}
    (hfit : (∅ : CycleHistogram).record (static_events graph cap) = .ok histogram) {pool : Pool}
    {found : Nat → List (List Nat)} (h : pool.Splits graph cap threads found) {move : Move}
    (he : move.Enabled threads pool) : ∃ next, step graph cap cutoff pool move = .ok next := by
  cases move with
  | spawn =>
      obtain ⟨next, hnext, -⟩ : ∃ next, step graph cap cutoff pool .spawn = .ok next ∧
          next.Splits graph cap threads found ∧ next.work graph < pool.work graph := h.spawn hw.counted he
      exact ⟨next, hnext⟩
  | advance thread index =>
      obtain ⟨ht, hi⟩ := he
      obtain ⟨own, more, hexpand⟩ :
          ∃ own found, Expands graph cap cutoff pool.tasks[index] own found :=
        task_expand_spec hw (h.valid pool.tasks[index] (List.getElem_mem hi))
      have hpart := subperm_map closing_event (found_subperm (h.handover ht hi hexpand) ht)
      rw [Function.update_self, all_closings_events] at hpart
      obtain ⟨local_histogram, hlocal⟩ := CycleHistogram.record_part hpart hfit
      rw [List.map_append, CycleHistogram.record_append, h.recorded] at hlocal
      rw [step_advance_eq hi hexpand, show (pool.locals thread).record (more.map closing_event) =
        .ok local_histogram from hlocal]
      exact ⟨_, rfl⟩

-- Every possible sequence of moves keeps the split, and it cannot go on for ever.
theorem Pool.Splits.run (hw : graph.WellFormed) {moves : List Move} {pool last : Pool}
    {found : Nat → List (List Nat)} (h : pool.Splits graph cap threads found)
    (hrun : IsRun graph cap cutoff threads moves pool)
    (hlast : run_moves graph cap cutoff moves pool = .ok last) :
    ∃ found', last.Splits graph cap threads found' ∧
      moves.length + last.work graph ≤ pool.work graph := by
  induction moves generalizing pool found with
  | nil =>
      obtain rfl := Except.ok.inj hlast
      exact ⟨found, h, by simp⟩
  | cons move moves ih =>
      rw [run_moves, List.foldlM_cons] at hlast
      cases hnext : step graph cap cutoff pool move with
      | error error => simp [hnext, bind, Except.bind] at hlast
      | ok next =>
          rw [hnext] at hlast
          obtain ⟨found', hsplits, hless⟩ := h.step_ok hw hrun.1 hnext
          obtain ⟨found'', hsplits', hle⟩ := ih hsplits (hrun.2 next hnext) hlast
          exact ⟨found'', hsplits', by simp only [List.length_cons]; omega⟩

theorem Pool.Splits.run_exists (hw : graph.WellFormed) {histogram : CycleHistogram}
    (hfit : (∅ : CycleHistogram).record (static_events graph cap) = .ok histogram)
    {moves : List Move} {pool : Pool} {found : Nat → List (List Nat)}
    (h : pool.Splits graph cap threads found) (hrun : IsRun graph cap cutoff threads moves pool) :
    ∃ last, run_moves graph cap cutoff moves pool = .ok last := by
  induction moves generalizing pool found with
  | nil => exact ⟨pool, rfl⟩
  | cons move moves ih =>
      obtain ⟨next, hnext⟩ := h.step_exists hw hfit hrun.1
      obtain ⟨found', hsplits, -⟩ := h.step_ok hw hrun.1 hnext
      obtain ⟨last, hlast⟩ := ih hsplits (hrun.2 next hnext)
      refine ⟨last, ?_⟩
      rw [run_moves, List.foldlM_cons, hnext]
      exact hlast

-- When nothing is pending the threads have found all cycles between them.
theorem Pool.Splits.merge (hw : graph.WellFormed) {pool : Pool} {found : Nat → List (List Nat)}
    (h : pool.Splits graph cap threads found) (hdone : pool.Finished) :
    CycleHistogram.merge_all ((List.range threads).map pool.locals) =
      (∅ : CycleHistogram).record (static_events graph cap) := by
  have hwhole := h.whole
  rw [Pool.pending, hdone.1, hdone.2] at hwhole
  simp only [List.flatMap_nil, List.append_nil] at hwhole
  have hparts : List.Forall₂ (fun one events => (∅ : CycleHistogram).record events = .ok one)
      ((List.range threads).map pool.locals)
      ((List.range threads).map fun thread => (found thread).map closing_event) :=
    List.forall₂_map_left_iff.mpr (List.forall₂_map_right_iff.mpr
      (List.forall₂_same.mpr fun thread _ => h.recorded thread))
  have hperm : ((List.range threads).map fun thread => (found thread).map closing_event).flatten.Perm
      (static_events graph cap) := by
    rw [← all_closings_events, ← List.flatMap_def, ← List.map_flatMap]
    exact hwhole.map closing_event
  have hl : ∀ event ∈ ((List.range threads).map fun thread =>
      (found thread).map closing_event).flatten, 2 ≤ event.1 := fun event he =>
    static_events_two_le hw event (hperm.mem_iff.mp he)
  rw [CycleHistogram.merge_all_eq hparts fun events hm event he =>
    hl event (List.mem_flatten.mpr ⟨events, hm, he⟩)]
  exact CycleHistogram.record_congr hl (static_events_two_le hw) fun k =>
    CycleHistogram.tally_perm hperm k

-- Until the barrier is passed some move is possible.
theorem exists_enabled {pool : Pool} (ht : 0 < threads) (h : ¬pool.Finished) :
    ∃ move : Move, move.Enabled threads pool := by
  by_cases hroots : pool.roots = []
  · have htasks : pool.tasks ≠ [] := fun htasks => h ⟨hroots, htasks⟩
    exact ⟨.advance 0 0, ht, List.length_pos_iff.mpr htasks⟩
  · exact ⟨.spawn, hroots⟩

-- A task leaves the other tasks and the histograms of the other threads alone.
theorem step_frame {pool next : Pool} {thread index : Nat}
    (h : step graph cap cutoff pool (.advance thread index) = .ok next) :
    (∀ other, other ≠ thread → next.locals other = pool.locals other) ∧
      next.roots = pool.roots ∧ ∃ own, next.tasks = pool.tasks.eraseIdx index ++ own := by
  rw [step] at h
  cases hi : pool.tasks[index]? with
  | none =>
      rw [hi] at h
      obtain rfl := Except.ok.inj h
      refine ⟨fun _ _ => rfl, rfl, [], ?_⟩
      rw [List.append_nil, List.eraseIdx_of_length_le (List.getElem?_eq_none_iff.mp hi)]
  | some task =>
      rw [hi] at h
      cases hexpand : task_expand graph cap cutoff task (pool.locals thread) with
      | error error => simp [hexpand, bind, Except.bind] at h
      | ok result =>
          simp only [hexpand] at h
          obtain rfl := Except.ok.inj h
          exact ⟨fun other ho => Function.update_of_ne ho _ _, rfl, result.1, rfl⟩

theorem validate_arguments_ok (hcap : ∀ limit ∈ cap, 2 ≤ limit) (hcutoff : 1 ≤ cutoff) :
    validate_arguments cap cutoff = .ok () := by
  rw [validate_arguments, validate_max_cycle_length_ok hcap, if_neg (by omega)]
  rfl

-- At the barrier the call returns exactly where the sequential count does.
theorem count_simple_cycles_read_tarjan_tasks_eq (hw : graph.WellFormed)
    (hcap : ∀ limit ∈ cap, 2 ≤ limit) (hcutoff : 1 ≤ cutoff) {available : Bool}
    {requested_threads : Int} (hthreads : 1 ≤ requested_threads)
    (havailable : available = true ∨ requested_threads = 1) {moves : List Move} {pool : Pool}
    (hpool : run_moves graph cap cutoff moves (Pool.initial graph) = .ok pool)
    {found : Nat → List (List Nat)}
    (h : pool.Splits graph cap requested_threads.toNat found) (hdone : pool.Finished) :
    count_simple_cycles_read_tarjan_tasks graph available requested_threads cap cutoff moves =
      Outcome.serial (Sequential.count_simple_cycles_read_tarjan graph cap) := by
  rw [count_simple_cycles_read_tarjan_tasks, validate_arguments_ok hcap hcutoff,
    resolve_thread_count_eq hthreads havailable, count_simple_cycles_read_tarjan_eq hw hcap]
  simp only [Outcome.serial_ok, Outcome.returned_bind]
  split_ifs
  · rw [hpool]
    simp only [Outcome.parallel_ok, Outcome.returned_bind]
    rw [h.merge hw hdone]
  · rw [count_single_thread_eq hw hcap, count_simple_cycles_bruteforce_eq hw hcap]

end CycleEnum.OpenMP.Tasks
