import CycleEnum.Sequential.Successors

namespace CycleEnum.Sequential

open Enumeration

-- The search state when the path is `stack`.
def PathState.at (stack : List Nat) : PathState := ⟨fun v => decide (v ∈ stack), stack⟩

theorem PathState.push_at (stack : List Nat) (vertex : Nat) :
    (PathState.at stack).push vertex = PathState.at (vertex :: stack) := by
  simp only [PathState.at, PathState.push, PathState.mk.injEq, and_true]
  funext x
  rw [Flags.set_apply]
  by_cases hx : x = vertex <;> simp [hx]

theorem PathState.pop_at {stack : List Nat} {vertex : Nat} (h : vertex ∉ stack) :
    (PathState.at (vertex :: stack)).pop vertex = PathState.at stack := by
  simp only [PathState.at, PathState.pop, List.tail_cons, PathState.mk.injEq, and_true]
  funext x
  rw [Flags.set_apply]
  by_cases hx : x = vertex
  · simp [hx, h]
  · simp [hx]

theorem PathState.start_eq (root first : Nat) :
    PathState.start root first = PathState.at [first, root] := by
  have h : Flags.none.set root true = (PathState.at [root]).visited := by
    funext x
    rw [Flags.set_apply]
    by_cases hx : x = root <;> simp [PathState.at, Flags.none, hx]
  rw [PathState.start, h]
  exact PathState.push_at [root] first

variable {graph : GraphView} {cap : Option Nat}

-- What is known of the stack of every search: distinct vertices of the graph
-- above the root.
structure OnPath (graph : GraphView) (root : Nat) (stack : List Nat) : Prop where
  nodup : stack.Nodup
  mem : ∀ v ∈ stack, v ∈ List.range graph.vertex_count
  root_mem : root ∈ stack

theorem OnPath.push {root : Nat} {stack : List Nat} (h : OnPath graph root stack) {next : Nat}
    (hn : next ∉ stack) (hm : next ∈ List.range graph.vertex_count) :
    OnPath graph root (next :: stack) where
  nodup := List.nodup_cons.mpr ⟨hn, h.nodup⟩
  mem v hv := by
    rcases List.mem_cons.mp hv with rfl | hv
    · exact hm
    · exact h.mem v hv
  root_mem := List.mem_cons_of_mem _ h.root_mem

theorem OnPath.length_le {root : Nat} {stack : List Nat} (h : OnPath graph root stack) :
    stack.length ≤ graph.vertex_count := by
  simpa using (h.nodup.subperm h.mem).length_le

-- A stack with another vertex next to the root has at least two vertices.
theorem OnPath.two_le {root v : Nat} {below : List Nat} (h : OnPath graph root (v :: below))
    (hv : v ≠ root) : 2 ≤ (v :: below).length := by
  have hb : root ∈ below := (List.mem_cons.mp h.root_mem).resolve_left (Ne.symm hv)
  have := List.length_pos_of_mem hb
  simp only [List.length_cons]
  omega

-- The closings of a path, edge by edge of its last vertex.
theorem closings_outgoing_row (hw : graph.WellFormed) {root v : Nat} {below : List Nat}
    (cap : Option Nat) (h : OnPath graph root (v :: below)) :
    closings (static_successors graph root) root cap graph.vertex_count (v :: below) =
      (graph.outgoing_row v).flatMap fun edge =>
        if root ≤ edge.vertex then branch root cap (v :: below) (fun next =>
          closings (static_successors graph root) root cap graph.vertex_count
            (next :: v :: below)) edge.vertex
        else [] := by
  have hmore : closings (static_successors graph root) root cap (graph.vertex_count + 1)
      (v :: below) = closings (static_successors graph root) root cap graph.vertex_count
        (v :: below) :=
    closings_fuel_eq (List.range graph.vertex_count)
      (fun v next hn => (mem_static_successors hw hn).1) _ _ _ h.nodup h.mem
      (by simp only [List.length_range, List.length_cons]; omega) (by omega)
  rw [← hmore, closings_row graph.vertex_count v below rfl]
  refine List.flatMap_congr fun edge _ => ?_
  simp only [decide_eq_true_eq]

-- The search adds one increment for every closing of its path and restores its
-- state. The path grows with every call, so the depth bound is never reached.
theorem simple_dfs_emits (cap : Option Nat) (hw : graph.WellFormed) (root : Nat) (fuel : Nat) (v : Nat)
    (below : List Nat) (h : OnPath graph root (v :: below))
    (hfuel : graph.vertex_count < (v :: below).length + fuel) :
    (simple_dfs graph cap root fuel v (PathState.at (v :: below))).Emits
      (PathState.at (v :: below))
      ((closings (static_successors graph root) root cap fuel (v :: below)).map closing_event) := by
  induction fuel generalizing v below with
  | zero => have := h.length_le; omega
  | succ fuel ih =>
      rw [closings_row fuel v below rfl, List.map_flatMap, simple_dfs]
      refine Search.Emits.foldlM_const fun edge he => ?_
      have hnext := (hw.bounded v edge he).2
      have hpath : (PathState.at (v :: below)).path = v :: below := rfl
      by_cases hr : edge.vertex = root
      · have hv : v ≠ root := fun hv => hw.no_loop v edge he (hr.trans hv.symm)
        have hlen := h.two_le hv
        rw [if_pos ⟨hr, hpath ▸ hlen⟩, if_pos (by simp [hr]), branch, if_pos hr]
        exact (Search.emits_increment _ 1).then (Search.emits_pure _)
      rw [if_neg fun hc => hr hc.1]
      by_cases hlow : edge.vertex < root
      · rw [if_pos (Or.inl (Nat.le_of_lt hlow)), if_neg (by simpa using hlow)]
        exact Search.emits_pure _
      have hle : ¬edge.vertex ≤ root := by omega
      rw [if_pos (show decide (root ≤ edge.vertex) = true by simp; omega), branch, if_neg hr]
      by_cases hm : edge.vertex ∈ v :: below
      · rw [if_pos (Or.inr (by simpa [PathState.at] using hm)), if_pos hm]
        exact Search.emits_pure _
      rw [if_neg (by simpa [PathState.at, hle] using hm), if_neg hm]
      cases hc : cut cap (v :: below).length with
      | true =>
          rw [hpath, if_pos hc, if_pos rfl]
          exact Search.emits_pure _
      | false =>
          rw [if_neg (by rw [hpath, hc]; simp), if_neg (by simp), PathState.push_at]
          have hin := ih edge.vertex (v :: below) (h.push hm (List.mem_range.mpr hnext))
            (by simp only [List.length_cons] at hfuel ⊢; omega)
          refine hin.then ?_
          rw [PathState.pop_at hm]
          exact Search.emits_pure _

theorem time_window_dfs_emits (cap : Option Nat) (hw : graph.WellFormed) {width : Int}
    (h0 : 0 ≤ width) {start : Int}
    (hs : start ≤ MAX_TIMESTAMP - width) (root : Nat) (fuel : Nat) (v : Nat) (below : List Nat)
    (h : OnPath graph root (v :: below))
    (hfuel : graph.vertex_count < (v :: below).length + fuel)
    (hroot : 2 ≤ (v :: below).length) :
    (time_window_dfs graph width cap root start fuel v (PathState.at (v :: below))).Emits
      (PathState.at (v :: below))
      ((closings (window_successors graph width root start) root cap fuel (v :: below)).map
        closing_event) := by
  induction fuel generalizing v below with
  | zero => have := h.length_le; omega
  | succ fuel ih =>
      rw [closings_row fuel v below rfl, List.map_flatMap, time_window_dfs]
      refine Search.Emits.foldlM_const fun edge he => ?_
      have hnext := (hw.bounded v edge he).2
      have hpath : (PathState.at (v :: below)).path = v :: below := rfl
      refine (Search.emits_ofExcept (edge_has_timestamp_eq hw h0 hs root v edge he)).silent ?_
      cases ha : admitted graph width root start v edge with
      | false => simpa using Search.emits_pure _
      | true =>
          rw [if_neg (by simp), if_pos rfl, branch]
          by_cases hr : edge.vertex = root
          · rw [if_pos ⟨hr, hpath ▸ hroot⟩, if_pos hr]
            exact (Search.emits_increment _ 1).then (Search.emits_pure _)
          rw [if_neg fun hc => hr hc.1, if_neg hr]
          by_cases hm : edge.vertex ∈ v :: below
          · rw [if_pos (by simpa [PathState.at] using hm), if_pos hm]
            exact Search.emits_pure _
          rw [if_neg (by simpa [PathState.at] using hm), if_neg hm]
          cases hc : cut cap (v :: below).length with
          | true =>
          rw [hpath, if_pos hc, if_pos rfl]
          exact Search.emits_pure _
          | false =>
              rw [if_neg (by rw [hpath, hc]; simp), if_neg (by simp), PathState.push_at]
              have hin := ih edge.vertex (v :: below) (h.push hm (List.mem_range.mpr hnext))
                (by simp only [List.length_cons] at hfuel ⊢; omega) (by simp)
              refine hin.then ?_
              rw [PathState.pop_at hm]
              exact Search.emits_pure _

-- A start event of the windowed and temporal searches: an edge that leaves the
-- root and the offset of one of its timestamps.
structure Start where
  root : Nat
  edge : AdjacencyEntry
  offset : Nat

def starts (graph : GraphView) : List Start :=
  (List.range graph.vertex_count).flatMap fun root =>
    (graph.outgoing_row root).flatMap fun edge =>
      (List.range' edge.timestamp_begin (edge.timestamp_end - edge.timestamp_begin)).map fun offset =>
        ⟨root, edge, offset⟩

def Start.time (graph : GraphView) (start : Start) : Int := timestamp_at graph.timestamps start.offset

theorem mem_starts {graph : GraphView} {start : Start} :
    start ∈ starts graph ↔ start.root < graph.vertex_count ∧
      start.edge ∈ graph.outgoing_row start.root ∧
      start.edge.timestamp_begin ≤ start.offset ∧ start.offset < start.edge.timestamp_end := by
  simp only [starts, List.mem_flatMap, List.mem_range, List.mem_map, List.mem_range'_1]
  constructor
  · rintro ⟨root, hr, edge, he, offset, ⟨h₁, h₂⟩, rfl⟩
    exact ⟨hr, he, h₁, by dsimp only; omega⟩
  · rintro ⟨hr, he, h₁, h₂⟩
    exact ⟨start.root, hr, start.edge, he, start.offset, ⟨h₁, by omega⟩, rfl⟩

-- No start event is visited twice.
theorem starts_nodup (hw : graph.WellFormed) : (starts graph).Nodup := by
  refine List.nodup_flatMap.mpr ⟨fun root _ => ?_, ?_⟩
  · refine List.nodup_flatMap.mpr ⟨fun edge _ => ?_, ?_⟩
    · exact List.Nodup.map (fun a b h => (Start.mk.inj h).2.2) List.nodup_range'
    · refine (hw.ascending root).imp fun {edge edge'} hlt start hs hs' => ?_
      obtain ⟨_, _, rfl⟩ := List.mem_map.mp hs
      obtain ⟨_, _, he⟩ := List.mem_map.mp hs'
      have := (Start.mk.inj he).2.1
      simp_all
  · refine List.nodup_range.imp fun {root root'} hne start hs hs' => hne ?_
    obtain ⟨_, _, hs⟩ := List.mem_flatMap.mp hs
    obtain ⟨_, _, rfl⟩ := List.mem_map.mp hs
    obtain ⟨_, _, hs'⟩ := List.mem_flatMap.mp hs'
    obtain ⟨_, _, he⟩ := List.mem_map.mp hs'
    exact (Start.mk.inj he).1.symm

-- No start timestamp plus the width leaves the timestamp range.
def NoWindowOverflow (graph : GraphView) (window_width : Int) : Prop :=
  ∀ start ∈ starts graph, start.time graph ≤ MAX_TIMESTAMP - window_width

theorem forM_flatMap {α β : Type} (xs : List α) (f : α → List β) (visit : β → Search Unit) :
    (xs.flatMap f).forM visit = xs.forM fun x => (f x).forM visit := by
  induction xs with
  | nil => rfl
  | cons x xs ih =>
      rw [List.flatMap_cons, List.forM_eq_forM, List.forM_append]
      change _ = (f x).forM visit >>= fun _ => xs.forM fun x => (f x).forM visit
      rw [← ih]
      rfl

theorem for_each_start_eq (hcount : graph.vertex_count < 2 ^ 32)
    (visit : Nat → AdjacencyEntry → Int → Search Unit) :
    for_each_start graph visit =
      (starts graph).forM fun start => visit start.root start.edge (start.time graph) := by
  rw [for_each_start, for_each_root_eq hcount, ← Search.forM_eq_foldlM, starts, forM_flatMap]
  simp only [forM_flatMap, List.forM_eq_forM, List.forM_map]
  rfl

theorem for_each_start_emits (hw : graph.WellFormed) {visit : Nat → AdjacencyEntry → Int → Search Unit}
    {events : Start → List (Nat × Nat)}
    (h : ∀ start ∈ starts graph,
      (visit start.root start.edge (start.time graph)).Emits () (events start)) :
    (for_each_start graph visit).Emits () ((starts graph).flatMap events) := by
  rw [for_each_start_eq hw.counted]
  exact Search.Emits.forM h

theorem for_each_root_emits (hw : graph.WellFormed) {visit : Nat → Search Unit}
    {events : Nat → List (Nat × Nat)}
    (h : ∀ root ∈ List.range graph.vertex_count, (visit root).Emits () (events root)) :
    (for_each_root graph.vertex_count (fun _ root => visit root) ()).Emits ()
      ((List.range graph.vertex_count).flatMap events) := by
  rw [for_each_root_eq hw.counted, ← Search.forM_eq_foldlM]
  exact Search.Emits.forM h

theorem on_path_root {root : Nat} (h : root < graph.vertex_count) : OnPath graph root [root] where
  nodup := List.nodup_singleton root
  mem v hv := by
    obtain rfl := List.mem_singleton.mp hv
    exact List.mem_range.mpr h
  root_mem := List.mem_singleton_self root

theorem on_path_start (hw : graph.WellFormed) {start : Start} (h : start ∈ starts graph) :
    OnPath graph start.root [start.edge.vertex, start.root] := by
  obtain ⟨hr, he, -, -⟩ := mem_starts.mp h
  refine (on_path_root hr).push (fun hm => ?_) (List.mem_range.mpr (hw.bounded _ _ he).2)
  exact hw.no_loop _ _ he (List.mem_singleton.mp hm)

-- The increments of a static count and of a time-window count, in search order.
def static_closings (graph : GraphView) (cap : Option Nat) (root : Nat) : List (List Nat) :=
  closings (static_successors graph root) root cap graph.vertex_count [root]

def static_events (graph : GraphView) (cap : Option Nat) : List (Nat × Nat) :=
  (List.range graph.vertex_count).flatMap fun root => (static_closings graph cap root).map closing_event

def window_closings (graph : GraphView) (width : Int) (cap : Option Nat) (start : Start) :
    List (List Nat) :=
  closings (window_successors graph width start.root (start.time graph)) start.root cap
    graph.vertex_count [start.edge.vertex, start.root]

def window_events (graph : GraphView) (width : Int) (cap : Option Nat) : List (Nat × Nat) :=
  (starts graph).flatMap fun start => (window_closings graph width cap start).map closing_event

theorem validate_max_cycle_length_ok {cap : Option Nat} (hcap : ∀ limit ∈ cap, 2 ≤ limit) :
    validate_max_cycle_length cap = .ok () := by
  cases cap with
  | none => rfl
  | some limit =>
      have := hcap limit rfl
      simp [validate_max_cycle_length]
      omega

theorem validate_window_width_ok {width : Int} (h0 : 0 ≤ width) :
    validate_window_width width = .ok () := by
  simp [validate_window_width, show ¬width < 0 by omega]

theorem count_simple_cycles_bruteforce_eq (hw : graph.WellFormed)
    (hcap : ∀ limit ∈ cap, 2 ≤ limit) :
    count_simple_cycles_bruteforce graph cap =
      (∅ : CycleHistogram).record (static_events graph cap) := by
  rw [count_simple_cycles_bruteforce, validate_max_cycle_length_ok hcap]
  have hloop : (for_each_root graph.vertex_count (fun (visited : Flags) root => do
      let state ← simple_dfs graph cap root graph.vertex_count root ⟨visited.set root true, [root]⟩
      return state.visited.set root false) Flags.none).Emits Flags.none
      (static_events graph cap) := by
    rw [for_each_root_eq hw.counted]
    refine Search.Emits.foldlM_const fun root hr => ?_
    have hstart : (⟨Flags.none.set root true, [root]⟩ : PathState) = PathState.at [root] :=
      PathState.push_at [] root
    rw [hstart]
    have hdfs := simple_dfs_emits cap hw root graph.vertex_count root []
      (on_path_root (List.mem_range.mp hr)) (by simp)
    refine hdfs.then ?_
    rw [← hstart, Flags.set_restore _ _ rfl]
    exact Search.emits_pure _
  exact (hloop.then (Search.emits_pure ())).histogram

theorem count_time_window_cycles_bruteforce_eq (hw : graph.WellFormed) {width : Int}
    (h0 : 0 ≤ width) (hno : NoWindowOverflow graph width) (hcap : ∀ limit ∈ cap, 2 ≤ limit) :
    count_time_window_cycles_bruteforce graph width cap =
      (∅ : CycleHistogram).record (window_events graph width cap) := by
  rw [count_time_window_cycles_bruteforce, validate_max_cycle_length_ok hcap,
    validate_window_width_ok h0]
  refine Search.Emits.histogram (for_each_start_emits hw fun start hs => ?_)
  have hdfs := time_window_dfs_emits cap hw h0 (hno _ hs) start.root
    graph.vertex_count start.edge.vertex [start.root] (on_path_start hw hs) (by simp) (by simp)
  rw [PathState.start_eq]
  exact hdfs.then (Search.emits_pure ())

theorem static_closes {root : Nat} {closed : List Nat}
    (h : closed ∈ static_closings graph cap root) :
    Closes (static_successors graph root) root cap [root] closed :=
  closes_of_mem_closings _ _ _ (List.nodup_singleton root) h

theorem window_closes (hw : graph.WellFormed) {width : Int} {start : Start} {closed : List Nat}
    (hs : start ∈ starts graph) (h : closed ∈ window_closings graph width cap start) :
    Closes (window_successors graph width start.root (start.time graph)) start.root cap
      [start.edge.vertex, start.root] closed :=
  closes_of_mem_closings _ _ _ (on_path_start hw hs).nodup h

theorem window_closes_outgoing_row {width : Int} {start : Start} {closed : List Nat}
    (hs : start ∈ starts graph)
    (h : Closes (window_successors graph width start.root (start.time graph)) start.root cap
      [start.edge.vertex, start.root] closed) :
    ∀ v ∈ closed, graph.outgoing_row v ≠ [] :=
  closes_outgoing_row h fun v hv => by
    obtain rfl := List.mem_singleton.mp hv
    exact List.ne_nil_of_mem (mem_starts.mp hs).2.1

-- The searches list every such path.
theorem mem_static_closings (hw : graph.WellFormed) {root : Nat} {closed : List Nat}
    (h : Closes (static_successors graph root) root cap [root] closed) :
    closed ∈ static_closings graph cap root := by
  have hlen := length_le_of_outgoing_row hw h.nodup (closes_outgoing_row h (by simp))
  exact mem_closings_of_closes _ _ _ (by simp) h (by simp; omega)

theorem mem_window_closings (hw : graph.WellFormed) {width : Int} {start : Start}
    (hs : start ∈ starts graph) {closed : List Nat}
    (h : Closes (window_successors graph width start.root (start.time graph)) start.root cap
      [start.edge.vertex, start.root] closed) :
    closed ∈ window_closings graph width cap start := by
  have hlen := length_le_of_outgoing_row hw h.nodup (window_closes_outgoing_row hs h)
  exact mem_closings_of_closes _ _ _ (by simp) h (by simp; omega)

-- Every increment of a run is one of a cycle length by one.
theorem static_closing_event (hw : graph.WellFormed) {root : Nat} {closed : List Nat}
    (h : closed ∈ static_closings graph cap root) :
    closing_event closed = (closed.length, 1) ∧ 2 ≤ closed.length := by
  have hc := static_closes h
  refine ⟨closing_event_eq hw hc.nodup (closes_outgoing_row hc (by simp)), ?_⟩
  obtain ⟨ext, rfl, -⟩ := hc.extends_stack
  obtain ⟨last, hl, hr⟩ := hc.closing
  cases ext with
  | nil =>
      obtain rfl : root = last := by simpa using hl
      exact absurd rfl (mem_static_successors hw hr).2
  | cons x ext => simp

theorem window_closing_event (hw : graph.WellFormed) {width : Int} {start : Start}
    {closed : List Nat} (hs : start ∈ starts graph)
    (h : closed ∈ window_closings graph width cap start) :
    closing_event closed = (closed.length, 1) ∧ 2 ≤ closed.length := by
  have hc := window_closes hw hs h
  exact ⟨closing_event_eq hw hc.nodup (window_closes_outgoing_row hs hc),
    by simpa using hc.suffix.length_le⟩

theorem static_events_two_le (hw : graph.WellFormed) : ∀ event ∈ static_events graph cap, 2 ≤ event.1 := by
  intro event he
  obtain ⟨root, -, he⟩ := List.mem_flatMap.mp he
  obtain ⟨closed, hc, rfl⟩ := List.mem_map.mp he
  obtain ⟨heq, hle⟩ := static_closing_event hw hc
  rw [heq]
  exact hle

theorem window_events_two_le (hw : graph.WellFormed) {width : Int} :
    ∀ event ∈ window_events graph width cap, 2 ≤ event.1 := by
  intro event he
  obtain ⟨start, hs, he⟩ := List.mem_flatMap.mp he
  obtain ⟨closed, hc, rfl⟩ := List.mem_map.mp he
  obtain ⟨heq, hle⟩ := window_closing_event hw hs hc
  rw [heq]
  exact hle

-- The closings of each length are what a count adds up.
theorem tally_closings {closed : List (List Nat)}
    (h : ∀ c ∈ closed, closing_event c = (c.length, 1)) (k : Nat) :
    CycleHistogram.tally (closed.map closing_event) k = closed.countP (·.length = k) := by
  induction closed with
  | nil => rfl
  | cons c closed ih =>
      have ih := ih fun x hx => h x (List.mem_cons_of_mem _ hx)
      rw [List.map_cons, CycleHistogram.tally_cons, ih, h c (by simp), List.countP_cons]
      by_cases hk : c.length = k
      · simp [hk, Nat.add_comm]
      · simp [hk]

theorem countP_lt_of_sublist {α : Type} {part all : List α} (h : part.Sublist all) (p : α → Bool)
    {a : α} (ha : a ∈ all) (hp : p a = true) (hn : a ∉ part) : part.countP p < all.countP p := by
  refine Nat.lt_of_le_of_ne (h.countP_le) fun heq => ?_
  rw [List.countP_eq_length_filter, List.countP_eq_length_filter] at heq
  have hfilter := (h.filter p).eq_of_length heq
  have := hfilter ▸ List.mem_filter.mpr ⟨ha, hp⟩
  exact hn (List.mem_filter.mp this).1

theorem exists_not_mem_of_sublist {α : Type} {part all : List α} (h : part.Sublist all)
    (hn : all.Nodup) (hne : part ≠ all) : ∃ a ∈ all, a ∉ part := by
  by_contra hall
  push Not at hall
  exact hne (h.eq_of_length_le (hn.subperm hall).length_le)

-- Searches that list part of the closings of each start event reach the counts of
-- the oracle exactly when they list all of them.
theorem for_each_start_part (hw : graph.WellFormed) {width : Int}
    {visit : Nat → AdjacencyEntry → Int → Search Unit} {out : Start → List (List Nat)}
    (hpart : ∀ start ∈ starts graph, (out start).Sublist (window_closings graph width cap start))
    (hemits : ∀ start ∈ starts graph,
      (visit start.root start.edge (start.time graph)).Emits () ((out start).map closing_event))
    {histogram : CycleHistogram}
    (hok : (∅ : CycleHistogram).record (window_events graph width cap) = .ok histogram) :
    (for_each_start graph visit).histogram = .ok histogram ↔
      ∀ start ∈ starts graph, out start = window_closings graph width cap start := by
  rw [(for_each_start_emits hw hemits).histogram]
  have hevents : ∀ start ∈ starts graph, ∀ c ∈ out start, closing_event c = (c.length, 1) ∧
      2 ≤ c.length := fun start hs c hc =>
    window_closing_event hw hs ((hpart start hs).subset hc)
  constructor
  · intro heq
    by_contra hlost
    push Not at hlost
    obtain ⟨start, hs, hne⟩ := hlost
    have hnodup : (window_closings graph width cap start).Nodup :=
      closings_nodup (window_successors_nodup hw width start.root (start.time graph)) _ _
        (on_path_start hw hs).nodup (by simp)
    obtain ⟨closed, hclosed, hmissing⟩ := exists_not_mem_of_sublist (hpart start hs) hnodup hne
    have htwo : ∀ event ∈ (starts graph).flatMap fun start => (out start).map closing_event,
        2 ≤ event.1 := by
      intro event he
      obtain ⟨start, hs, he⟩ := List.mem_flatMap.mp he
      obtain ⟨c, hc, rfl⟩ := List.mem_map.mp he
      obtain ⟨he, hle⟩ := hevents start hs c hc
      rw [he]
      exact hle
    have hlow := (CycleHistogram.record_count htwo heq).2 closed.length
    have hhigh := (CycleHistogram.record_count (window_events_two_le hw) hok).2 closed.length
    rw [hlow, window_events, CycleHistogram.tally_flatMap, CycleHistogram.tally_flatMap] at hhigh
    -- one start event adds too little at this length and none adds too much
    refine absurd hhigh (Nat.ne_of_lt (List.sum_lt_sum _ _ (fun start hs => ?_) ⟨start, hs, ?_⟩))
    · rw [tally_closings (fun c hc => (hevents start hs c hc).1),
        tally_closings fun c hc => (window_closing_event hw hs hc).1]
      exact (hpart start hs).countP_le
    · rw [tally_closings (fun c hc => (hevents start hs c hc).1),
        tally_closings fun c hc => (window_closing_event hw hs hc).1]
      exact countP_lt_of_sublist (hpart start hs) _ hclosed (by simp) hmissing
  · intro hall
    rw [← hok, window_events]
    congr 1
    exact List.flatMap_congr fun start hs => by rw [hall start hs]

end CycleEnum.Sequential
