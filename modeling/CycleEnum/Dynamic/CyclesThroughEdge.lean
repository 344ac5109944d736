import CycleEnum.Dynamic.DirectedGraph

namespace CycleEnum.Dynamic

open CycleEnum.Enumeration CycleEnum.Sequential

def edge_key (source target : Nat) : Nat := source <<< 32 ||| target

-- The entries in the order in which they are added. `emplace` keeps the first entry
-- of a key, and that is the one a lookup finds.
structure ChangedEdgeIndex where
  id_of : List (Nat × Nat)

namespace ChangedEdgeIndex

def of_changes (changes : List EdgeChange) : ChangedEdgeIndex where
  id_of := changes.zipIdx.map fun (change, index) => (edge_key change.source change.target, index)

def forbidden_before (phase_changes : ChangedEdgeIndex) (source target owner_id : Nat) : Bool :=
  match phase_changes.id_of.lookup (edge_key source target) with
  | none => false
  | some found => found < owner_id

end ChangedEdgeIndex

-- `counts[length] += 1` on an array of 64-bit counts.
def count_one (counts : List Nat) (length : Nat) : List Nat :=
  counts.modify length fun count => (count + 1) % 2 ^ 64

structure EdgeSearch where
  visited : Flags
  counts : List Nat

def search (graph : DirectedGraph) (u v owner_id : Nat) (phase_changes : ChangedEdgeIndex)
    (max_length : Nat) : Nat → Nat → Nat → EdgeSearch → Except Error EdgeSearch
  | 0, _, _, _ => throw .unfinished
  | fuel + 1, current, path_size, state =>
      (graph.read_row current).foldlM (fun state next => do
        if phase_changes.forbidden_before current next owner_id then return state
        else if next = u then
          let length := path_size + 1
          if 2 ≤ length ∧ length ≤ max_length then
            return { state with counts := count_one state.counts length }
          else return state
        else if next = v ∨ state.visited next then return state
        else if path_size + 1 < max_length then do
          let state ← search graph u v owner_id phase_changes max_length fuel next (path_size + 1)
            { state with visited := state.visited.set next true }
          return { state with visited := state.visited.set next false }
        else return state) state

-- The buffer that a thread keeps between calls.
structure VisitedBuffer where
  size : Nat
  visited : Flags

def VisitedBuffer.grow (buffer : VisitedBuffer) (vertex_count : Nat) : VisitedBuffer :=
  if buffer.size < vertex_count then ⟨vertex_count, Flags.none⟩ else buffer

def count_cycles_through_edge (graph : DirectedGraph) (source target owner_id : Nat)
    (phase_changes : ChangedEdgeIndex) (max_length : Nat) (counts : List Nat)
    (buffer : VisitedBuffer) : Except Error (List Nat × VisitedBuffer) := do
  if max_length < 2 ∨ target ≥ graph.vertex_count ∨ source ≥ graph.vertex_count then
    return (counts, buffer)
  else do
    let buffer := buffer.grow graph.vertex_count
    let state ← search graph source target owner_id phase_changes max_length graph.vertex_count
      target 1 ⟨(buffer.visited.set source true).set target true, counts⟩
    return (state.counts,
      { buffer with visited := (state.visited.set source false).set target false })

section Index

theorem edge_key_inj {source target source' target' : Nat} (ht : target < 2 ^ 32)
    (ht' : target' < 2 ^ 32) (h : edge_key source target = edge_key source' target') :
    source = source' ∧ target = target' := by
  rw [edge_key, edge_key, ← Nat.shiftLeft_add_eq_or_of_lt ht,
    ← Nat.shiftLeft_add_eq_or_of_lt ht', Nat.shiftLeft_eq, Nat.shiftLeft_eq] at h
  omega

theorem lookup_changes {changes : List EdgeChange} (hids : ∀ change ∈ changes, change.target < 2 ^ 32)
    (first source target : Nat) (ht : target < 2 ^ 32) :
    ((changes.zipIdx first).map fun (change, index) =>
        (edge_key change.source change.target, index)).lookup (edge_key source target) =
      if ⟨source, target⟩ ∈ changes then some (first + changes.idxOf ⟨source, target⟩) else none := by
  induction changes generalizing first with
  | nil => simp
  | cons change changes ih =>
      have hc := hids change (by simp)
      by_cases heq : change = ⟨source, target⟩
      · subst heq
        simp
      · have hkey : edge_key source target ≠ edge_key change.source change.target := fun hk => heq (by
          obtain ⟨h₁, h₂⟩ := edge_key_inj ht hc hk
          cases change
          simp_all)
        rw [List.zipIdx_cons, List.map_cons, List.lookup_cons, beq_false_of_ne hkey,
          ih fun c hm => hids c (List.mem_cons_of_mem _ hm)]
        have hmem : ⟨source, target⟩ ∈ change :: changes ↔ ⟨source, target⟩ ∈ changes := by
          simp [Ne.symm heq]
        simp only [hmem, List.idxOf_cons_ne _ heq]
        split_ifs
        · congr 1
          omega
        · rfl

-- A changed edge is forbidden to the owners after it.
theorem forbidden_before_iff {changes : List EdgeChange}
    (hids : ∀ change ∈ changes, change.target < 2 ^ 32) (source target owner_id : Nat)
    (ht : target < 2 ^ 32) :
    (ChangedEdgeIndex.of_changes changes).forbidden_before source target owner_id = true ↔
      ⟨source, target⟩ ∈ changes.take owner_id := by
  rw [ChangedEdgeIndex.forbidden_before, ChangedEdgeIndex.of_changes, lookup_changes hids 0 _ _ ht]
  by_cases hm : ⟨source, target⟩ ∈ changes
  · rw [if_pos hm, List.mem_take_iff_idxOf_lt hm]
    simp
  · rw [if_neg hm]
    simpa using fun h => hm (List.mem_of_mem_take h)

end Index

section Search

-- The counts after the cycles with the given vertices were found.
def count_all (counts : List Nat) (closed : List (List Nat)) : List Nat :=
  closed.foldl (fun counts c => count_one counts c.length) counts

theorem count_all_append (counts : List Nat) (closed more : List (List Nat)) :
    count_all counts (closed ++ more) = count_all (count_all counts closed) more :=
  List.foldl_append

@[simp] theorem length_count_all (counts : List Nat) (closed : List (List Nat)) :
    (count_all counts closed).length = counts.length := by
  induction closed generalizing counts with
  | nil => rfl
  | cons c closed ih => rw [count_all, List.foldl_cons, ← count_all, ih, count_one, List.length_modify]

-- The counts are words, and each closing adds one.
theorem count_all_getD_mod (counts : List Nat) (closed : List (List Nat)) {k : Nat}
    (hk : k < counts.length) (hword : counts.getD k 0 < 2 ^ 64) :
    (count_all counts closed).getD k 0 =
      (counts.getD k 0 + closed.countP (·.length = k)) % 2 ^ 64 := by
  induction closed generalizing counts with
  | nil => exact (Nat.mod_eq_of_lt hword).symm
  | cons c closed ih =>
      have hone : (count_one counts c.length).getD k 0 =
          (counts.getD k 0 + if c.length = k then 1 else 0) % 2 ^ 64 := by
        rw [count_one, List.getD_eq_getElem _ _ (by simpa using hk), List.getD_eq_getElem _ _ hk,
          List.getElem_modify]
        rw [List.getD_eq_getElem _ _ hk] at hword
        split_ifs with hc
        · rfl
        · exact (Nat.mod_eq_of_lt hword).symm
      rw [count_all, List.foldl_cons, ← count_all, ih (count_one counts c.length)
        (by rw [count_one, List.length_modify]; exact hk) (by rw [hone]; omega), hone,
        List.countP_cons]
      simp only [decide_eq_true_eq]
      omega

theorem count_all_getD (counts : List Nat) (closed : List (List Nat)) {k : Nat}
    (hk : k < counts.length) (hsmall : counts.getD k 0 + closed.countP (·.length = k) < 2 ^ 64) :
    (count_all counts closed).getD k 0 = counts.getD k 0 + closed.countP (·.length = k) := by
  rw [count_all_getD_mod counts closed hk (by omega), Nat.mod_eq_of_lt hsmall]

variable {graph : DirectedGraph} {u v owner_id max_length : Nat} {phase_changes : ChangedEdgeIndex}

-- The arcs that the search with this owner crosses, in the rows as it reads them.
def owned_successors (graph : DirectedGraph) (phase_changes : ChangedEdgeIndex) (owner_id a : Nat) :
    List Nat :=
  (graph.read_row a).filter fun b => !phase_changes.forbidden_before a b owner_id

theorem foldlM_counts {row : List Nat} {step : EdgeSearch → Nat → Except Error EdgeSearch}
    {visited : Flags} {out : Nat → List (List Nat)}
    (h : ∀ next ∈ row, ∀ counts,
      step ⟨visited, counts⟩ next = .ok ⟨visited, count_all counts (out next)⟩) (counts : List Nat) :
    row.foldlM step ⟨visited, counts⟩ = .ok ⟨visited, count_all counts (row.flatMap out)⟩ := by
  induction row generalizing counts with
  | nil => rfl
  | cons next row ih =>
      rw [List.foldlM_cons, h next (by simp), List.flatMap_cons, count_all_append]
      exact ih (fun x hx => h x (List.mem_cons_of_mem _ hx)) _

theorem visited_push (stack : List Nat) (next : Nat) :
    (PathState.at stack).visited.set next true = (PathState.at (next :: stack)).visited :=
  congrArg PathState.visited (PathState.push_at stack next)

theorem visited_pop {stack : List Nat} {next : Nat} (h : next ∉ stack) :
    (PathState.at (next :: stack)).visited.set next false = (PathState.at stack).visited :=
  congrArg PathState.visited (PathState.pop_at h)

-- The search counts every closing of its path and restores its flags. The path holds
-- `v`, which the source tests on its own, and below it `u`, which may be `v` again.
theorem search_eq (hbounded : ∀ a, ∀ next ∈ graph.read_row a, next < graph.vertex_count)
    (fuel current path_size : Nat) (below : List Nat) (hn : (current :: below).Nodup)
    (hb : ∀ x ∈ current :: below, x < graph.vertex_count) (hv : v ∈ current :: below)
    (hsize : path_size = (current :: below).length) (hmax : path_size + 1 ≤ max_length)
    (hfuel : graph.vertex_count < path_size + fuel) (counts : List Nat) :
    search graph u v owner_id phase_changes max_length fuel current path_size
        ⟨(PathState.at (current :: (below ++ [u]))).visited, counts⟩ =
      .ok ⟨(PathState.at (current :: (below ++ [u]))).visited, count_all counts
        (closings (owned_successors graph phase_changes owner_id) u (some max_length) fuel
          (current :: (below ++ [u])))⟩ := by
  induction fuel generalizing current path_size below counts with
  | zero =>
      have hlen := (hn.subperm fun x hx => List.mem_range.mpr (hb x hx)).length_le
      rw [List.length_range] at hlen
      omega
  | succ fuel ih =>
      have htotal : (current :: (below ++ [u])).length = path_size + 1 := by
        rw [hsize]
        simp
      have hsucc : owned_successors graph phase_changes owner_id current =
          ((graph.read_row current).filter fun b =>
            !phase_changes.forbidden_before current b owner_id).map id := (List.map_id _).symm
      rw [closings_row fuel current (below ++ [u]) hsucc, search]
      refine foldlM_counts (fun next hnext counts => ?_) counts
      have hnext := hbounded current next hnext
      cases hf : phase_changes.forbidden_before current next owner_id with
      | true => rw [if_pos rfl, if_neg (by simp)]; rfl
      | false =>
          rw [if_neg Bool.false_ne_true, Bool.not_false, if_pos rfl, id, branch]
          by_cases hnu : next = u
          · rw [if_pos hnu, if_pos hnu]
            dsimp only
            rw [if_pos ⟨by rw [hsize, List.length_cons]; omega, hmax⟩, ← htotal]
            rfl
          rw [if_neg hnu, if_neg hnu]
          by_cases hm : next ∈ current :: (below ++ [u])
          · rw [if_pos (Or.inr (by simpa [PathState.at] using hm)), if_pos hm]
            rfl
          have hnew : next ∉ current :: below := fun hin => hm (List.mem_append_left [u] hin)
          have hnv : ¬(next = v ∨ (PathState.at (current :: (below ++ [u]))).visited next = true) := by
            rintro (rfl | hvisited)
            · exact hnew hv
            · exact hm (by simpa [PathState.at] using hvisited)
          rw [if_neg hnv, if_neg hm]
          by_cases hc : path_size + 1 < max_length
          · have hrec := ih next (path_size + 1) (current :: below) (List.nodup_cons.mpr ⟨hnew, hn⟩)
              (List.forall_mem_cons.mpr ⟨hnext, hb⟩) (List.mem_cons_of_mem _ hv)
              (by simp [hsize]) hc (by omega) counts
            rw [if_pos hc, if_neg (by simpa [cut, htotal] using hc)]
            dsimp only
            rw [visited_push]
            change (search graph u v owner_id phase_changes max_length fuel next (path_size + 1)
              ⟨(PathState.at (next :: (current :: below ++ [u]))).visited, counts⟩).bind _ = _
            rw [hrec]
            change Except.ok _ = _
            rw [List.cons_append, visited_pop hm]
          · rw [if_neg hc, if_pos (by simpa [cut, htotal] using hc)]
            rfl

-- A call leaves the buffer clear for the next one.
theorem count_cycles_through_edge_eq
    (hbounded : ∀ a, ∀ next ∈ graph.read_row a, next < graph.vertex_count)
    (hu : u < graph.vertex_count) (hv : v < graph.vertex_count) (hmax : 2 ≤ max_length)
    (counts : List Nat)
    {buffer : VisitedBuffer} (hclear : buffer.visited = Flags.none) :
    ∃ buffer', count_cycles_through_edge graph u v owner_id phase_changes max_length counts buffer =
        .ok (count_all counts (closings (owned_successors graph phase_changes owner_id) u
          (some max_length) graph.vertex_count [v, u]), buffer') ∧
      buffer'.visited = Flags.none := by
  have hgrow : (buffer.grow graph.vertex_count).visited = Flags.none := by
    unfold VisitedBuffer.grow
    split_ifs
    · rfl
    · exact hclear
  have hempty : Flags.none = (PathState.at []).visited := by
    funext x
    simp [PathState.at, Flags.none]
  have hsearch : search graph u v owner_id phase_changes max_length graph.vertex_count v 1
      ⟨(PathState.at [v, u]).visited, counts⟩ = .ok _ :=
    search_eq hbounded graph.vertex_count v 1 [] (List.nodup_singleton v) (by simpa using hv)
      (by simp) rfl hmax (by omega) counts
  have hrun : ¬(max_length < 2 ∨ v ≥ graph.vertex_count ∨ u ≥ graph.vertex_count) := by omega
  have hswap : ((PathState.at [v, u]).visited.set u false).set v false = Flags.none := by
    funext x
    simp only [Flags.set_apply, PathState.at, Flags.none]
    by_cases hxv : x = v <;> by_cases hxu : x = u <;> simp [hxv, hxu]
  refine ⟨⟨(buffer.grow graph.vertex_count).size, Flags.none⟩, ?_, rfl⟩
  rw [count_cycles_through_edge, if_neg hrun]
  dsimp only
  rw [hgrow, hempty, visited_push, visited_push, hsearch]
  change Except.ok (_, VisitedBuffer.mk _ (((PathState.at [v, u]).visited.set u false).set v false))
    = _
  rw [hswap, hempty]
  rfl

-- What a call for a change counts, whatever the length it is asked for.
def owned_closings (graph : DirectedGraph) (changes : List EdgeChange) (max_length : Nat)
    (change : EdgeChange) (owner_id : Nat) : List (List Nat) :=
  if max_length < 2 then []
  else closings (owned_successors graph (ChangedEdgeIndex.of_changes changes) owner_id)
    change.source (some max_length) graph.vertex_count [change.target, change.source]

theorem count_cycles_through_edge_ok (changes : List EdgeChange) (change : EdgeChange)
    (owner_id max_length : Nat)
    (hbounded : ∀ a, ∀ next ∈ graph.read_row a, next < graph.vertex_count)
    (hu : change.source < graph.vertex_count) (hv : change.target < graph.vertex_count)
    (counts : List Nat) {buffer : VisitedBuffer} (hclear : buffer.visited = Flags.none) :
    ∃ buffer', count_cycles_through_edge graph change.source change.target owner_id
        (ChangedEdgeIndex.of_changes changes) max_length counts buffer =
        .ok (count_all counts (owned_closings graph changes max_length change owner_id), buffer') ∧
      buffer'.visited = Flags.none := by
  unfold owned_closings
  split_ifs with hmax
  · refine ⟨buffer, ?_, hclear⟩
    rw [count_cycles_through_edge, if_pos (Or.inl hmax)]
    rfl
  · exact count_cycles_through_edge_eq hbounded hu hv (by omega) counts hclear

end Search

end CycleEnum.Dynamic
