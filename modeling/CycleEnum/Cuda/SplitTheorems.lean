import CycleEnum.Cuda.BranchSplit
import CycleEnum.Enumeration.SimplePaths
import CycleEnum.Sequential.JohnsonClosings
import CycleEnum.Sequential.Theorems

namespace CycleEnum.Cuda

open CycleEnum.Enumeration CycleEnum.Sequential

variable {graph : GraphView} {cap : Option Nat} {cutoff_depth : Nat}

section Split

-- The prefixes that the search from a root reaches, last vertex first.
def prefixes (graph : GraphView) (cap : Option Nat) (cutoff_depth root : Nat) : List (List Nat) :=
  cutoff_paths (static_successors graph root) cap cutoff_depth graph.vertex_count [root]

def all_items (graph : GraphView) (cap : Option Nat) (cutoff_depth : Nat) : List SplitWorkItem :=
  (List.range graph.vertex_count).flatMap fun root =>
    split_items graph cap root (prefixes graph cap cutoff_depth root)

def closed_events (graph : GraphView) (cap : Option Nat) (cutoff_depth : Nat) : List (Nat × Nat) :=
  (List.range graph.vertex_count).flatMap fun root =>
    ((static_closings graph cap root).filter (·.length < cutoff_depth)).map closing_event

-- What the continuation of a work item finds.
def continued_events (graph : GraphView) (cap : Option Nat) (item : SplitWorkItem) :
    List (Nat × Nat) :=
  (closings (static_successors graph item.root) item.root cap graph.vertex_count
    item.prefix_.reverse).map closing_event

theorem split_static_search_eq (hw : graph.WellFormed) (hcutoff : 2 ≤ cutoff_depth)
    (hsize : cutoff_depth ≤ MAX_PATH_SIZE)
    (hcap : ∀ limit ∈ cap, 2 ≤ limit) :
    split_static_search graph cutoff_depth cap =
      ((∅ : CycleHistogram).record (closed_events graph cap cutoff_depth)).map fun closed =>
        ⟨all_items graph cap cutoff_depth, closed⟩ := by
  have hsearch : (split_roots graph cutoff_depth cap).Emits (all_items graph cap cutoff_depth)
      (closed_events graph cap cutoff_depth) := by
    rw [split_roots, for_each_root_eq hw.counted]
    refine Search.Emits.foldlM_append id (fun root hr items => ?_) []
    have hstart : (⟨Flags.none.set root true, [root]⟩ : PathState) = PathState.at [root] :=
      PathState.push_at [] root
    rw [hstart]
    exact (expand_emits cap hw root graph.vertex_count root [] items
      (on_path_root (List.mem_range.mp hr)) (by simp) (by simp; omega)).then (Search.emits_pure _)
  rw [split_static_search, if_neg (by omega), validate_max_cycle_length_ok hcap,
    if_neg (Nat.not_lt.mpr hsize)]
  change (split_roots graph cutoff_depth cap ∅).bind _ = _
  rw [hsearch ∅]
  cases (∅ : CycleHistogram).record (closed_events graph cap cutoff_depth) with
  | error error => rfl
  | ok closed => rfl

theorem SplitPrefix.on_path (hw : graph.WellFormed) {root : Nat} {rest : List Nat}
    (h : SplitPrefix graph cutoff_depth (root :: rest)) (hcutoff : 2 ≤ cutoff_depth) :
    OnPath graph root (rest.reverse ++ [root]) := by
  have hrest : rest ⊆ List.range graph.vertex_count :=
    mem_of_chain (R := Arc graph) (fun a b hab => by
      obtain ⟨edge, he, rfl⟩ := hab
      rw [← hw.whole] at he
      exact List.mem_range.mpr (hw.bounded a edge he).2) h.on_arcs
  have hroot : root ∈ List.range graph.vertex_count := by
    have hlen := h.length_eq
    have harcs := h.on_arcs
    cases rest with
    | nil =>
        rw [List.length_singleton] at hlen
        omega
    | cons second rest =>
        obtain ⟨edge, he, -⟩ := (List.isChain_cons_cons.mp harcs).1
        rw [← hw.whole] at he
        exact List.mem_range.mpr (hw.bounded root edge he).1
  refine ⟨?_, fun v hv => ?_, by simp⟩
  · rw [← List.nodup_reverse]
    simpa using h.nodup
  · rcases List.mem_append.mp hv with hv | hv
    · exact hrest (List.mem_reverse.mp hv)
    · exact List.mem_singleton.mp hv ▸ hroot

-- The continuation adds what the whole search finds above the prefix.
theorem continue_from_prefix_eq (hw : graph.WellFormed) {root : Nat} {rest : List Nat}
    (h : OnPath graph root (rest.reverse ++ [root])) :
    continue_from_prefix graph cap ⟨root :: rest⟩ =
      (∅ : CycleHistogram).record (continued_events graph cap ⟨root :: rest⟩) := by
  have hrev : (rest.reverse ++ [root]).reverse = root :: rest := by simp
  have hstate := SplitWorkItem.state_reverse (rest.reverse ++ [root])
  obtain ⟨v, below, hstack⟩ := List.exists_cons_of_ne_nil
    (show rest.reverse ++ [root] ≠ [] by simp)
  have hlast : (root :: rest).getLastD 0 = v := by
    rw [← hrev, hstack]
    simp
  rw [hrev] at hstate
  rw [hstack] at h hstate
  have hdfs := simple_dfs_emits cap hw root graph.vertex_count v below h
    (by simp only [List.length_cons]; omega)
  unfold continue_from_prefix
  rw [continued_events, SplitWorkItem.root, List.headD_cons, hlast, hstate, List.reverse_cons, hstack]
  exact (hdfs.then (Search.emits_pure ())).histogram

theorem mem_prefixes_iff (hw : graph.WellFormed) (hcutoff : 2 ≤ cutoff_depth) {root : Nat}
    {stack : List Nat} :
    stack ∈ prefixes graph cap cutoff_depth root ↔ ∃ rest, stack = rest.reverse ++ [root] ∧
      SplitPrefix graph cutoff_depth (root :: rest) ∧ ∀ limit ∈ cap, cutoff_depth ≤ limit := by
  constructor
  · intro h
    have hreaches := reaches_of_mem_cutoff_paths _ _ stack (List.nodup_singleton root) h
    obtain ⟨ext, rfl, -⟩ := hreaches.extends_stack
    rw [← List.reverse_reverse ext] at hreaches
    obtain ⟨hsplit, hcap⟩ := (split_prefix_iff hw root ext.reverse).mp hreaches
    refine ⟨ext.reverse, by rw [List.reverse_reverse], hsplit, hcap.resolve_left fun hnil => ?_⟩
    have hlen := hsplit.length_eq
    rw [hnil, List.length_singleton] at hlen
    omega
  · rintro ⟨rest, rfl, hsplit, hcap⟩
    have hlen := (hsplit.on_path hw hcutoff).length_le
    refine mem_cutoff_paths_of_reaches _ _ _ (by simp)
      ((split_prefix_iff hw root rest).mpr ⟨hsplit, Or.inr hcap⟩) ?_
    simp only [List.length_singleton]
    omega

def SplitWorkItem.HasWork (graph : GraphView) (cap : Option Nat) (item : SplitWorkItem) : Prop :=
  prefix_has_work graph item.root item.state cap = true

theorem has_work_cons (root : Nat) (rest : List Nat) :
    SplitWorkItem.HasWork graph cap ⟨root :: rest⟩ ↔
      prefix_has_work graph root (PathState.at (rest.reverse ++ [root])) cap = true := by
  have hstate := SplitWorkItem.state_reverse (rest.reverse ++ [root])
  rw [List.reverse_append, List.reverse_reverse, List.reverse_singleton,
    List.singleton_append] at hstate
  rw [SplitWorkItem.HasWork, hstate]
  rfl

-- The items are the prefixes with work.
theorem mem_all_items_iff (hw : graph.WellFormed) (hcutoff : 2 ≤ cutoff_depth)
    (item : SplitWorkItem) :
    item ∈ all_items graph cap cutoff_depth ↔ SplitPrefix graph cutoff_depth item.prefix_ ∧
      (∀ limit ∈ cap, cutoff_depth ≤ limit) ∧ item.HasWork graph cap := by
  constructor
  · intro h
    obtain ⟨root, -, h⟩ := List.mem_flatMap.mp h
    obtain ⟨stack, hstack, rfl⟩ := List.mem_map.mp h
    obtain ⟨hstack, hwork⟩ := List.mem_filter.mp hstack
    obtain ⟨rest, rfl, hsplit, hcap⟩ := (mem_prefixes_iff hw hcutoff).mp hstack
    rw [List.reverse_append, List.reverse_reverse, List.reverse_singleton, List.singleton_append]
    exact ⟨hsplit, hcap, (has_work_cons root rest).mpr hwork⟩
  · obtain ⟨path⟩ := item
    rintro ⟨hsplit, hcap, hwork⟩
    cases path with
    | nil =>
        have hlen : 0 = cutoff_depth := hsplit.length_eq
        omega
    | cons root rest =>
        have hpath := hsplit.on_path hw hcutoff
        refine List.mem_flatMap.mpr ⟨root, hpath.mem root (by simp), List.mem_map.mpr
          ⟨rest.reverse ++ [root], List.mem_filter.mpr ⟨?_, (has_work_cons root rest).mp hwork⟩, by simp⟩⟩
        exact (mem_prefixes_iff hw hcutoff).mpr ⟨rest, rfl, hsplit, hcap⟩

theorem all_items_nodup (hw : graph.WellFormed) (hcutoff : 2 ≤ cutoff_depth) :
    (all_items graph cap cutoff_depth).Nodup := by
  have hinjective : Function.Injective fun stack : List Nat => (⟨stack.reverse⟩ : SplitWorkItem) :=
    fun a b hab => List.reverse_injective (SplitWorkItem.mk.inj hab)
  refine List.nodup_flatMap.mpr ⟨fun root _ => ?_, List.nodup_range.imp fun {a b} hne => ?_⟩
  · exact ((cutoff_paths_nodup (static_successors_nodup hw root) _ _
      (List.nodup_singleton root)).filter _).map hinjective
  · -- the first vertex tells the roots apart
    intro item ha hb
    obtain ⟨stack, hstack, rfl⟩ := List.mem_map.mp ha
    obtain ⟨stack', hstack', heq⟩ := List.mem_map.mp hb
    obtain rfl := hinjective heq
    obtain ⟨rest, hrest, -⟩ := (mem_prefixes_iff hw hcutoff).mp (List.mem_filter.mp hstack).1
    obtain ⟨rest', hrest', -⟩ := (mem_prefixes_iff hw hcutoff).mp (List.mem_filter.mp hstack').1
    exact hne (List.singleton_inj.mp (List.append_inj' (hrest.symm.trans hrest') rfl).2)

-- A prefix without work is continued in vain.
theorem continued_events_eq_nil {root : Nat} {rest : List Nat}
    (htwo : 2 ≤ (root :: rest).length)
    (hno : prefix_has_work graph root (PathState.at (rest.reverse ++ [root])) cap = false) :
    continued_events graph cap ⟨root :: rest⟩ = [] := by
  obtain ⟨v, below, hstack⟩ := List.exists_cons_of_ne_nil
    (show rest.reverse ++ [root] ≠ [] by simp)
  have hlen : 2 ≤ (v :: below).length := by
    rw [← hstack]
    simpa using htwo
  rw [hstack] at hno
  rw [continued_events, SplitWorkItem.root, List.headD_cons, List.reverse_cons, hstack,
    closings_eq_nil_of_no_work graph.vertex_count hlen hno, List.map_nil]

-- What is closed and what is continued together is what the whole search finds.
theorem split_events_perm (cap : Option Nat) (hw : graph.WellFormed) (hcutoff : 2 ≤ cutoff_depth) :
    (closed_events graph cap cutoff_depth ++
      (all_items graph cap cutoff_depth).flatMap (continued_events graph cap)).Perm
        (static_events graph cap) := by
  have hroot : ∀ root ∈ List.range graph.vertex_count,
      (split_items graph cap root (prefixes graph cap cutoff_depth root)).flatMap
          (continued_events graph cap) =
        ((static_closings graph cap root).filter (cutoff_depth ≤ ·.length)).map closing_event := by
    intro root hr
    rw [static_closings, filter_closings_eq_flatMap (List.range graph.vertex_count)
      (fun v next hnext => (mem_static_successors hw hnext).1) graph.vertex_count graph.vertex_count
      [root] (List.nodup_singleton root) (fun v hv => List.mem_singleton.mp hv ▸ hr) (by simp)
      (by simp) (Nat.le_refl _) (by simp; omega), List.map_flatMap, ← prefixes, split_items,
      List.flatMap_map]
    have hkept : ∀ stack ∈ prefixes graph cap cutoff_depth root,
        continued_events graph cap ⟨stack.reverse⟩ =
          (closings (static_successors graph root) root cap graph.vertex_count stack).map
            closing_event ∧
        (prefix_has_work graph root (PathState.at stack) cap = false →
          continued_events graph cap ⟨stack.reverse⟩ = []) := by
      intro stack hstack
      obtain ⟨rest, rfl, hsplit, -⟩ := (mem_prefixes_iff hw hcutoff).mp hstack
      have hrev : (rest.reverse ++ [root]).reverse = root :: rest := by simp
      rw [hrev]
      constructor
      · rw [continued_events, SplitWorkItem.root, List.headD_cons, List.reverse_cons]
      · exact continued_events_eq_nil (by rw [hsplit.length_eq]; exact hcutoff)
    generalize prefixes graph cap cutoff_depth root = found at hkept
    induction found with
    | nil => rfl
    | cons stack found ih =>
        obtain ⟨hone, hnone⟩ := hkept stack List.mem_cons_self
        have ih := ih fun other ho => hkept other (List.mem_cons_of_mem _ ho)
        rw [List.filter_cons, List.flatMap_cons, ← hone]
        cases hwork : prefix_has_work graph root (PathState.at stack) cap with
        | false =>
            rw [if_neg Bool.false_ne_true, hnone hwork, List.nil_append]
            exact ih
        | true =>
            rw [if_pos rfl, List.flatMap_cons]
            exact congrArg _ ih
  rw [all_items, List.flatMap_assoc, List.flatMap_congr hroot, closed_events, static_events]
  refine (List.flatMap_append_perm _ _ _).trans (List.Perm.flatMap_left _ fun root _ => ?_)
  rw [← List.map_append]
  refine List.Perm.map _ ?_
  have hnot : (fun closed : List Nat => decide (cutoff_depth ≤ closed.length)) =
      fun closed => !decide (closed.length < cutoff_depth) := by
    funext closed
    rw [← decide_not]
    exact decide_eq_decide.mpr Nat.not_lt.symm
  rw [hnot]
  exact List.filter_append_perm _ _

end Split

section Theorems

theorem closed_events_tally (hw : graph.WellFormed) (k : Nat) :
    CycleHistogram.tally (closed_events graph cap cutoff_depth) k =
      if k < cutoff_depth then CycleHistogram.tally (static_events graph cap) k else 0 := by
  have hroot : ∀ root, CycleHistogram.tally (((static_closings graph cap root).filter
        (·.length < cutoff_depth)).map closing_event) k =
      if k < cutoff_depth then
        CycleHistogram.tally ((static_closings graph cap root).map closing_event) k else 0 := by
    intro root
    rw [tally_closings fun closed hc => (static_closing_event hw (List.mem_filter.mp hc).1).1,
      tally_closings fun closed hc => (static_closing_event hw hc).1, List.countP_filter]
    split_ifs with hk
    · refine List.countP_congr fun closed _ => ?_
      simp only [Bool.and_eq_true, decide_eq_true_eq]
      omega
    · refine List.countP_eq_zero.mpr fun closed _ => ?_
      simp only [Bool.and_eq_true, decide_eq_true_eq]
      omega
  rw [closed_events, static_events, CycleHistogram.tally_flatMap, CycleHistogram.tally_flatMap]
  rw [List.map_congr_left fun root _ => hroot root]
  split_ifs
  · rfl
  · exact List.sum_eq_zero fun n hn => by
      obtain ⟨root, -, rfl⟩ := List.mem_map.mp hn
      rfl

theorem closed_events_two_le (cap : Option Nat) (cutoff_depth : Nat) (hw : graph.WellFormed) :
    ∀ event ∈ closed_events graph cap cutoff_depth, 2 ≤ event.1 := by
  intro event he
  obtain ⟨root, hr, he⟩ := List.mem_flatMap.mp he
  obtain ⟨closed, hc, rfl⟩ := List.mem_map.mp he
  obtain ⟨heq, hle⟩ := static_closing_event hw (List.mem_filter.mp hc).1
  rw [heq]
  exact hle

theorem recombine_eq (hw : graph.WellFormed) (hcutoff : 2 ≤ cutoff_depth)
    (hsize : cutoff_depth ≤ MAX_PATH_SIZE)
    (hcap : ∀ limit ∈ cap, 2 ≤ limit) :
    (split_static_search graph cutoff_depth cap).bind (recombine graph cap) =
      (∅ : CycleHistogram).record (static_events graph cap) := by
  have hperm := split_events_perm cap hw hcutoff
  have hl : ∀ event ∈ static_events graph cap, 2 ≤ event.1 := static_events_two_le hw
  have hclosed := closed_events_two_le cap cutoff_depth hw
  have hitems : ∀ item ∈ all_items graph cap cutoff_depth, ∀ event ∈ continued_events graph cap item,
      2 ≤ event.1 := by
    intro item hitem event he
    exact hl event (hperm.subset (List.mem_append_right _ (List.mem_flatMap.mpr ⟨item, hitem, he⟩)))
  rw [split_static_search_eq hw hcutoff hsize hcap]
  cases hrecord : (∅ : CycleHistogram).record (closed_events graph cap cutoff_depth) with
  | error error =>
      refine (CycleHistogram.record_error ?_ hl hrecord).symm
      exact (List.sublist_append_left _ _).subperm.trans hperm.subperm
  | ok closed =>
      change (all_items graph cap cutoff_depth).foldlM _ closed = _
      rw [CycleHistogram.foldlM_merge_recorded (all_items graph cap cutoff_depth)
        (fun item hitem => ?_) hitems hclosed hrecord]
      · exact CycleHistogram.record_congr (fun event he => hl event (hperm.subset he)) hl
          (CycleHistogram.tally_perm hperm)
      · have hsplit := ((mem_all_items_iff hw hcutoff item).mp hitem).1
        obtain ⟨path⟩ := item
        cases path with
        | nil =>
            have hlen : 0 = cutoff_depth := hsplit.length_eq
            omega
        | cons root rest => exact continue_from_prefix_eq hw (hsplit.on_path hw hcutoff)

theorem split_static_search_closed (hw : graph.WellFormed) (hcutoff : 2 ≤ cutoff_depth)
    (hsize : cutoff_depth ≤ MAX_PATH_SIZE)
    (hcap : ∀ limit ∈ cap, 2 ≤ limit) :
    (split_static_search graph cutoff_depth cap).map (·.closed) =
      (∅ : CycleHistogram).record (closed_events graph cap cutoff_depth) := by
  rw [split_static_search_eq hw hcutoff hsize hcap]
  cases (∅ : CycleHistogram).record (closed_events graph cap cutoff_depth) <;> rfl

theorem continue_without_work (hw : graph.WellFormed) (hcutoff : 2 ≤ cutoff_depth)
    {item : SplitWorkItem} (hsplit : SplitPrefix graph cutoff_depth item.prefix_)
    (hno : ¬item.HasWork graph cap) : continue_from_prefix graph cap item = .ok ∅ := by
  obtain ⟨path⟩ := item
  cases path with
  | nil =>
      have hlen : 0 = cutoff_depth := hsplit.length_eq
      omega
  | cons root rest =>
      have hlen : (root :: rest).length = cutoff_depth := hsplit.length_eq
      rw [has_work_cons, Bool.not_eq_true] at hno
      rw [continue_from_prefix_eq hw (hsplit.on_path hw hcutoff),
        continued_events_eq_nil (hlen ▸ hcutoff) hno]
      exact CycleHistogram.record_nil ∅

-- The search partitions the cycles: the closed ones, the work items, both together, and the
-- prefixes that are dropped.
structure SplitsExactly (graph : GraphView) (cap : Option Nat) (cutoff_depth : Nat) : Prop where
  closed : CycleHistogram.Counts ((split_static_search graph cutoff_depth cap).map (·.closed)) cap
    fun k => if k < cutoff_depth then (simple_cycles graph k).ncard else 0
  restricted : ∀ histogram, count_simple_cycles_johnson graph cap = .ok histogram →
    (split_static_search graph cutoff_depth cap).map (·.closed) =
      .ok (histogram.restrict (cutoff_depth - 1))
  items : ∀ split, split_static_search graph cutoff_depth cap = .ok split → split.items.Nodup ∧
    ∀ item, item ∈ split.items ↔ SplitPrefix graph cutoff_depth item.prefix_ ∧
      (∀ limit ∈ cap, cutoff_depth ≤ limit) ∧ item.HasWork graph cap
  together : (split_static_search graph cutoff_depth cap).bind (recombine graph cap) =
    count_simple_cycles_johnson graph cap
  dropped : ∀ item : SplitWorkItem, SplitPrefix graph cutoff_depth item.prefix_ →
    ¬item.HasWork graph cap → continue_from_prefix graph cap item = .ok ∅

theorem splits_exactly (hw : graph.WellFormed) (hcutoff : 2 ≤ cutoff_depth)
    (hsize : cutoff_depth ≤ MAX_PATH_SIZE) (hcap : ∀ limit ∈ cap, 2 ≤ limit) :
    SplitsExactly graph cap cutoff_depth := by
  have hclosed := split_static_search_closed hw hcutoff hsize hcap
  have hl := closed_events_two_le cap cutoff_depth hw
  have hjohnson := count_simple_cycles_johnson_eq hw hcap
  refine ⟨?_, ?_, ?_, ?_, fun item => continue_without_work hw hcutoff⟩
  · rw [hclosed]
    refine CycleHistogram.record_counts hl (fun k hk hle => ?_) fun k hk hle => ?_
    · rw [closed_events_tally hw, static_tally_eq hw hk hle]
    · rw [closed_events_tally hw, static_tally_beyond hw hk hle, ite_self]
  · intro histogram hhistogram
    rw [hclosed]
    refine CycleHistogram.record_restrict (static_events_two_le hw) hl (fun k => ?_)
      (hjohnson ▸ hhistogram)
    rw [closed_events_tally hw]
    by_cases hk : k < cutoff_depth
    · rw [if_pos hk, if_pos (by omega)]
    · rw [if_neg hk, if_neg (by omega)]
  · intro split hsplit
    rw [split_static_search_eq hw hcutoff hsize hcap] at hsplit
    cases hrecord : (∅ : CycleHistogram).record (closed_events graph cap cutoff_depth) with
    | error error =>
        rw [hrecord] at hsplit
        cases hsplit
    | ok closed =>
        rw [hrecord] at hsplit
        obtain rfl := Except.ok.inj hsplit
        exact ⟨all_items_nodup hw hcutoff, mem_all_items_iff hw hcutoff⟩
  · rw [hjohnson]
    exact recombine_eq hw hcutoff hsize hcap

-- A result has a path that can be reserved, and a loop over the roots that ends.
theorem split_static_search_returns {split : BranchSplit} (hcutoff : 2 ≤ cutoff_depth)
    (hcap : ∀ limit ∈ cap, 2 ≤ limit)
    (h : split_static_search graph cutoff_depth cap = .ok split) :
    graph.vertex_count < 2 ^ 32 ∧ cutoff_depth ≤ MAX_PATH_SIZE := by
  rw [split_static_search, if_neg (by omega), validate_max_cycle_length_ok hcap] at h
  by_cases hsize : MAX_PATH_SIZE < cutoff_depth
  · rw [if_pos hsize] at h
    cases h
  rw [if_neg hsize] at h
  refine ⟨?_, Nat.le_of_not_lt hsize⟩
  by_contra hcount
  obtain ⟨-, -, hrest⟩ := bind_ok h
  obtain ⟨result, hresult, -⟩ := bind_ok hrest
  exact for_each_root_endless (Nat.le_of_not_lt hcount) _ _ _ _ hresult

-- A split whose counts fit is found.
theorem SplitsExactly.bounds (h : SplitsExactly graph cap cutoff_depth) (hcutoff : 2 ≤ cutoff_depth)
    (hcap : ∀ limit ∈ cap, 2 ≤ limit)
    (hfit : CycleHistogram.NumbersFit cap fun k => (simple_cycles graph k).ncard) :
    graph.vertex_count < 2 ^ 32 ∧ cutoff_depth ≤ MAX_PATH_SIZE := by
  have hclosed : CycleHistogram.NumbersFit cap fun k =>
      if k < cutoff_depth then (simple_cycles graph k).ncard else 0 := by
    intro k hk hle
    dsimp only
    split_ifs
    · exact hfit k hk hle
    · exact Nat.zero_le _
  obtain ⟨histogram, hok⟩ := h.closed.returns hclosed
  cases hsplit : split_static_search graph cutoff_depth cap with
  | error error =>
      rw [hsplit] at hok
      cases hok
  | ok split => exact split_static_search_returns hcutoff hcap hsplit

theorem split_static_search_exact (hg : Parsed graph) (hcutoff : 2 ≤ cutoff_depth)
    (hcap : ∀ limit ∈ cap, 2 ≤ limit)
    (hfit : CycleHistogram.NumbersFit cap fun k => (simple_cycles graph k).ncard) :
    SplitsExactly graph cap cutoff_depth ↔
      graph.vertex_count < 2 ^ 32 ∧ cutoff_depth ≤ MAX_PATH_SIZE := by
  constructor
  · exact fun h => h.bounds hcutoff hcap hfit
  · rintro ⟨hids, hsize⟩
    exact splits_exactly (hg.well_formed hids) hcutoff hsize hcap

theorem split_static_search_exact_sample : SplitsExactly (view_of sample_rows) none 3 :=
  (split_static_search_exact sample_parsed (by decide) (by simp) (sample_fits _)).mpr
    ⟨by decide, by decide⟩

-- The loop over the roots does not come to an end, and no path has room for 2^61 vertices.
theorem split_static_search_wide :
    (Parsed wide_view ∧ (∀ k, 2 ≤ k → (simple_cycles wide_view k).ncard = 0) ∧
      ¬SplitsExactly wide_view none 2) ∧
    Parsed (view_of sample_rows) ∧ ¬SplitsExactly (view_of sample_rows) none (2 ^ 61) := by
  refine ⟨⟨wide_view_parsed, fun _ hk => wide_view_numbers hk, fun h => ?_⟩, sample_parsed, fun h => ?_⟩
  · have hfit : CycleHistogram.NumbersFit none fun k => (simple_cycles wide_view k).ncard :=
      fun k hk _ => (wide_view_numbers hk).trans_le (Nat.zero_le _)
    exact absurd (h.bounds (by decide) (by simp) hfit).1 wide_view_vertex_count.ge.not_gt
  · exact absurd (h.bounds (by decide) (by simp) (sample_fits _)).2 (by decide)

end Theorems

end CycleEnum.Cuda
