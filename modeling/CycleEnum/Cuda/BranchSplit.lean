import CycleEnum.Core.Merge
import CycleEnum.Enumeration.Cutoff
import CycleEnum.Sequential.SimpleCycles

namespace CycleEnum.Cuda

open CycleEnum.Enumeration CycleEnum.Sequential

structure SplitWorkItem where
  prefix_ : List Nat
deriving DecidableEq, Repr

structure BranchSplit where
  items : List SplitWorkItem
  closed : CycleHistogram

def prefix_has_work (graph : GraphView) (root : Nat) (state : PathState)
    (max_cycle_length : Option Nat) : Bool :=
  (graph.outgoing_row (state.path.headD 0)).any fun edge =>
    if edge.vertex = root ∧ 2 ≤ state.path.length then true
    else if edge.vertex ≤ root ∨ state.visited edge.vertex then false
    else if cut max_cycle_length state.path.length then false
    else true

-- `path.back()` is the head of the path, of which the last vertex comes first.
def expand (graph : GraphView) (root cutoff_depth : Nat) (max_cycle_length : Option Nat) :
    Nat → List SplitWorkItem × PathState → Search (List SplitWorkItem × PathState)
  | 0, _ => Search.finished none
  | fuel + 1, (items, state) =>
      if state.path.length = cutoff_depth then
        if prefix_has_work graph root state max_cycle_length then
          return (items ++ [⟨state.path.reverse⟩], state)
        else return (items, state)
      else
        (graph.outgoing_row (state.path.headD 0)).foldlM (fun (items, state) edge =>
          if edge.vertex = root ∧ 2 ≤ state.path.length then do
            Search.increment (length_of_size state.path.length) 1
            return (items, state)
          else if edge.vertex ≤ root ∨ state.visited edge.vertex then return (items, state)
          else if cut max_cycle_length state.path.length then return (items, state)
          else do
            let (items, state) ← expand graph root cutoff_depth max_cycle_length fuel
              (items, state.push edge.vertex)
            return (items, state.pop edge.vertex)) (items, state)

-- The loop over the roots.
def split_roots (graph : GraphView) (cutoff_depth : Nat) (max_cycle_length : Option Nat) :
    Search (List SplitWorkItem) :=
  for_each_root graph.vertex_count (fun items root => do
    let (items, _) ← expand graph root cutoff_depth max_cycle_length graph.vertex_count
      (items, ⟨Flags.none.set root true, [root]⟩)
    return items) []

-- What a vector of vertices can hold: `path.reserve` throws length_error beyond it.
def MAX_PATH_SIZE : Nat := 2 ^ 61 - 1

def split_static_search (graph : GraphView) (cutoff_depth : Nat) (max_cycle_length : Option Nat) :
    Except Error BranchSplit := do
  if cutoff_depth < 2 then
    throw (.invalid_argument "cutoff_depth must be at least 2")
  validate_max_cycle_length max_cycle_length
  if MAX_PATH_SIZE < cutoff_depth then
    throw (.logic_error "vector::reserve")
  let (items, closed) ← split_roots graph cutoff_depth max_cycle_length ∅
  return ⟨items, closed⟩

namespace SplitWorkItem

def root (item : SplitWorkItem) : Nat := item.prefix_.headD 0

-- What a continuation starts from: the prefix as the path, with its vertices marked.
def state (item : SplitWorkItem) : PathState :=
  ⟨item.prefix_.foldl (fun visited vertex => visited.set vertex true) Flags.none,
    item.prefix_.reverse⟩

end SplitWorkItem

-- The continuation of the tests. Its search is, line by line, that of the sequential
-- counter by brute force.
def continue_from_prefix (graph : GraphView) (max_cycle_length : Option Nat)
    (item : SplitWorkItem) : Except Error CycleHistogram :=
  Search.histogram do
    let _ ← simple_dfs graph max_cycle_length item.root graph.vertex_count
      (item.prefix_.getLastD 0) item.state

def recombine (graph : GraphView) (max_cycle_length : Option Nat) (split : BranchSplit) :
    Except Error CycleHistogram :=
  split.items.foldlM (fun total item => do
    total.merge (← continue_from_prefix graph max_cycle_length item)) split.closed

-- A path of `cutoff_depth` distinct vertices whose first vertex is the smallest.
structure SplitPrefix (graph : GraphView) (cutoff_depth : Nat) (path : List Nat) : Prop where
  nodup : path.Nodup
  length_eq : path.length = cutoff_depth
  on_arcs : path.IsChain (Arc graph)
  above_first : ∀ first ∈ path.head?, ∀ later ∈ path.tail, first < later

variable {graph : GraphView} {cap : Option Nat} {cutoff_depth : Nat}

section Items

theorem SplitWorkItem.state_reverse (stack : List Nat) :
    SplitWorkItem.state ⟨stack.reverse⟩ = PathState.at stack := by
  have hflags : ∀ (path : List Nat) (flags : Flags) (v : Nat),
      path.foldl (fun visited vertex => visited.set vertex true) flags v =
        (decide (v ∈ path) || flags v) := by
    intro path
    induction path with
    | nil => simp
    | cons first path ih =>
        intro flags v
        rw [List.foldl_cons, ih, Flags.set_apply]
        by_cases hv : v = first <;> simp [hv]
  rw [SplitWorkItem.state, PathState.at, List.reverse_reverse]
  congr 1
  funext v
  rw [hflags]
  simp [Flags.none]

theorem static_chain_above (hw : graph.WellFormed) (root first : Nat) (rest : List Nat) :
    (first :: rest).IsChain (fun a b => b ∈ static_successors graph root a) ↔
      (first :: rest).IsChain (Arc graph) ∧ ∀ v ∈ rest, root ≤ v := by
  induction rest generalizing first with
  | nil => simp
  | cons second rest ih =>
      rw [List.isChain_cons_cons, List.isChain_cons_cons, ih, mem_static_successors_iff hw,
        List.forall_mem_cons]
      constructor
      · rintro ⟨⟨harc, hle⟩, hchain, hrest⟩
        exact ⟨⟨harc, hchain⟩, hle, hrest⟩
      · rintro ⟨⟨harc, hchain⟩, hle, hrest⟩
        exact ⟨⟨harc, hle⟩, hchain, hrest⟩

-- The smallest vertex is the first, and the arcs keep above it.
theorem split_prefix_iff (hw : graph.WellFormed) (root : Nat) (rest : List Nat) :
    ReachesCutoff (static_successors graph root) cap cutoff_depth [root] (rest.reverse ++ [root]) ↔
      SplitPrefix graph cutoff_depth (root :: rest) ∧
        (rest = [] ∨ ∀ limit ∈ cap, cutoff_depth ≤ limit) := by
  have hrev : (rest.reverse ++ [root]).IsChain (fun after before =>
      after ∈ static_successors graph root before) ↔
        (root :: rest).IsChain fun a b => b ∈ static_successors graph root a := by
    rw [← List.isChain_reverse]
    simp
  have hnodup : (rest.reverse ++ [root]).Nodup ↔ (root :: rest).Nodup := by
    rw [← List.nodup_reverse]
    simp
  constructor
  · intro h
    obtain ⟨ext, he, hchain⟩ := h.extends_stack
    obtain rfl := List.append_cancel_right he
    obtain ⟨harcs, hlow⟩ := (static_chain_above hw root root rest).mp (hrev.mp hchain)
    have hn := hnodup.mp h.nodup
    refine ⟨⟨hn, by simpa using h.length_eq, harcs, ?_⟩, h.capped.imp (fun hnil => ?_) id⟩
    · intro first hfirst later hlater
      obtain rfl := Option.some.inj hfirst
      have hle := hlow later hlater
      have hne : root ≠ later := fun heq => (List.nodup_cons.mp hn).1 (heq ▸ hlater)
      omega
    · simpa using hnil
  · rintro ⟨h, hcap⟩
    have hchain := (static_chain_above hw root root rest).mpr ⟨h.on_arcs, fun v hv =>
      Nat.le_of_lt (h.above_first root rfl v hv)⟩
    exact ⟨⟨rest.reverse, rfl, hrev.mpr hchain⟩, hnodup.mpr h.nodup, by simpa using h.length_eq,
      hcap.imp (fun hnil => by simp [hnil]) id⟩

end Items

section Expand

-- What the work items of one root are, its stacks as prefixes.
def split_items (graph : GraphView) (cap : Option Nat) (root : Nat) (reached : List (List Nat)) :
    List SplitWorkItem :=
  (reached.filter fun stack => prefix_has_work graph root (PathState.at stack) cap).map
    fun stack => ⟨stack.reverse⟩

-- The search counts the closings below the cutoff and lists the paths that reach it.
theorem expand_emits (cap : Option Nat) (hw : graph.WellFormed) (root fuel v : Nat)
    (below : List Nat) (items : List SplitWorkItem) (h : OnPath graph root (v :: below))
    (hfuel : graph.vertex_count < (v :: below).length + fuel)
    (hle : (v :: below).length ≤ cutoff_depth) :
    (expand graph root cutoff_depth cap fuel (items, PathState.at (v :: below))).Emits
      (items ++ split_items graph cap root
        (cutoff_paths (static_successors graph root) cap cutoff_depth fuel (v :: below)),
        PathState.at (v :: below))
      (((closings (static_successors graph root) root cap fuel (v :: below)).filter
        (·.length < cutoff_depth)).map closing_event) := by
  induction fuel generalizing v below items with
  | zero =>
      have := h.length_le
      omega
  | succ fuel ih =>
      have hpath : (PathState.at (v :: below)).path = v :: below := rfl
      by_cases hlen : (v :: below).length = cutoff_depth
      · have hlong : (closings (static_successors graph root) root cap (fuel + 1)
            (v :: below)).filter (·.length < cutoff_depth) = [] := by
          rw [List.filter_eq_nil_iff]
          intro closed hclosed
          have := (suffix_of_mem_closings _ _ closed hclosed).length_le
          rw [decide_eq_true_eq]
          omega
        rw [hlong, cutoff_paths, if_pos hlen, expand, hpath, if_pos hlen, split_items]
        cases hwork : prefix_has_work graph root (PathState.at (v :: below)) cap with
        | false =>
            rw [if_neg Bool.false_ne_true, List.filter_singleton, hwork, cond_false, List.map_nil,
              List.append_nil]
            exact Search.emits_pure _
        | true =>
            rw [if_pos rfl, List.filter_singleton, hwork]
            exact Search.emits_pure _
      rw [closings_row fuel v below rfl, cutoff_paths_row fuel v below rfl hlen, expand, hpath,
        if_neg hlen, split_items, List.filter_flatMap, List.map_flatMap, List.filter_flatMap,
        List.map_flatMap]
      refine Search.Emits.foldlM_append (fun items => (items, PathState.at (v :: below)))
        (fun edge he items => ?_) items
      have hnext := (hw.bounded v edge he).2
      dsimp only
      have hskip : Search.Emits (pure (items, PathState.at (v :: below)))
          (items ++ ([] : List SplitWorkItem), PathState.at (v :: below)) [] := by
        rw [List.append_nil]
        exact Search.emits_pure _
      by_cases hr : edge.vertex = root
      · have hv : v ≠ root := fun hv => hw.no_loop v edge he (hr.trans hv.symm)
        have hshort : (v :: below).length < cutoff_depth := Nat.lt_of_le_of_ne hle hlen
        have habove : decide (root ≤ edge.vertex) = true := decide_eq_true (by omega)
        have hroot : edge.vertex ∈ v :: below := hr.symm ▸ h.root_mem
        rw [if_pos ⟨hr, hpath ▸ h.two_le hv⟩, if_pos habove, if_pos habove, branch, if_pos hr,
          if_pos hroot, List.filter_nil, List.map_nil, List.filter_singleton, decide_eq_true hshort]
        exact (Search.emits_increment _ 1).then hskip
      rw [if_neg fun hc => hr hc.1]
      by_cases hlow : edge.vertex < root
      · have hnot : ¬decide (root ≤ edge.vertex) = true := by simpa using hlow
        rw [if_pos (Or.inl (Nat.le_of_lt hlow)), if_neg hnot, if_neg hnot]
        exact hskip
      have habove : decide (root ≤ edge.vertex) = true := decide_eq_true (by omega)
      have hle' : ¬edge.vertex ≤ root := by omega
      rw [if_pos habove, if_pos habove, branch, if_neg hr]
      by_cases hm : edge.vertex ∈ v :: below
      · rw [if_pos (Or.inr (by simpa [PathState.at] using hm)), if_pos hm, if_pos hm]
        exact hskip
      rw [if_neg (by simpa [PathState.at, hle'] using hm), if_neg hm, if_neg hm]
      cases hc : cut cap (v :: below).length with
      | true =>
          rw [hpath, if_pos hc, if_pos rfl, if_pos rfl]
          exact hskip
      | false =>
          rw [if_neg (by rw [hpath, hc]; simp), if_neg Bool.false_ne_true,
            if_neg Bool.false_ne_true, PathState.push_at]
          have hin := ih edge.vertex (v :: below) items (h.push hm (List.mem_range.mpr hnext))
            (by simp only [List.length_cons] at hfuel ⊢; omega)
            (by simp only [List.length_cons] at hle hlen ⊢; omega)
          refine hin.then ?_
          dsimp only
          rw [PathState.pop_at hm]
          exact Search.emits_pure _

-- Without work nothing is found from a prefix.
theorem closings_eq_nil_of_no_work (fuel : Nat) {root v : Nat} {below : List Nat}
    (htwo : 2 ≤ (v :: below).length)
    (hno : prefix_has_work graph root (PathState.at (v :: below)) cap = false) :
    closings (static_successors graph root) root cap fuel (v :: below) = [] := by
  cases fuel with
  | zero => rfl
  | succ fuel =>
      rw [closings_row fuel v below rfl, List.flatMap_eq_nil_iff]
      intro edge he
      have hedge := List.any_eq_false.mp hno edge he
      have hpath : (PathState.at (v :: below)).path = v :: below := rfl
      rw [hpath] at hedge
      split_ifs at hedge with hclose hskip hcut
      · exact absurd rfl hedge
      · have hr : edge.vertex ≠ root := fun hr => hclose ⟨hr, htwo⟩
        rw [branch, if_neg hr]
        by_cases hm : edge.vertex ∈ v :: below
        · rw [if_pos hm, ite_self]
        · have hlow : edge.vertex ≤ root := hskip.resolve_right (by simpa [PathState.at] using hm)
          rw [if_neg (by rw [decide_eq_true_eq]; omega)]
      · have hr : edge.vertex ≠ root := fun hr => hclose ⟨hr, htwo⟩
        rw [branch, if_neg hr, if_pos hcut, ite_self, ite_self]
      · exact absurd rfl hedge

end Expand

end CycleEnum.Cuda
