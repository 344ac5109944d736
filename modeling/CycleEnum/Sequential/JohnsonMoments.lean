import CycleEnum.Enumeration.Cascade
import CycleEnum.Sequential.JohnsonClosings
import CycleEnum.Sequential.Theorems

namespace CycleEnum.Sequential

open Enumeration

-- A search by its calls, the rounds of their loops, and the tests that a round passes
-- before it makes a call.
structure CircuitCode where
  circuit : Nat → Nat → JohnsonState → Search (Bool × JohnsonState)
  edge_loop : Nat → Nat → Bool × JohnsonState → AdjacencyEntry → Search (Bool × JohnsonState)
  enters : Nat → JohnsonState → AdjacencyEntry → Prop

def JohnsonSearch.code (graph : GraphView) (root : Nat) : CircuitCode where
  circuit := JohnsonSearch.circuit graph none root
  edge_loop fuel _ := JohnsonSearch.edge_loop graph none root fuel
  enters _ state edge :=
    ¬(edge.vertex = root ∧ 2 ≤ state.path.length) ∧
      ¬(edge.vertex ≤ root ∨ state.blocking.blocked edge.vertex = true)

def JohnsonTimeWindowSearch.code (graph : GraphView) (window_width : Int) (root : Nat)
    (start_timestamp : Int) : CircuitCode where
  circuit := JohnsonTimeWindowSearch.circuit graph window_width none root start_timestamp
  edge_loop := JohnsonTimeWindowSearch.edge_loop graph window_width none root start_timestamp
  enters vertex state edge :=
    edge_has_timestamp graph window_width root start_timestamp edge vertex = .ok true ∧
      ¬(edge.vertex = root ∧ 2 ≤ state.path.length) ∧
      ¬state.blocking.blocked edge.vertex = true

-- The states at the start of a call, before it frees its vertex, and at its end.
inductive Moment where
  | call (vertex : Nat) (state : JohnsonState)
  | unblock (vertex : Nat) (state : JohnsonState)
  | return_ (found_cycle : Bool) (state : JohnsonState)

-- What a call passes through, also if it throws later: its own moments and those of the
-- calls that its loop makes.
inductive Passes (graph : GraphView) (code : CircuitCode) :
    Nat → Nat → JohnsonState → CycleHistogram → Moment → Prop
  | call {fuel vertex : Nat} {state : JohnsonState} {histogram : CycleHistogram} :
      Passes graph code fuel vertex state histogram (.call vertex state)
  | inner {fuel vertex : Nat} {state next_state : JohnsonState}
      {histogram next_histogram : CycleHistogram} {before after : List AdjacencyEntry}
      {edge : AdjacencyEntry} {found_cycle : Bool} {moment : Moment}
      (hrow : graph.outgoing_row vertex = before ++ edge :: after)
      (hbefore : before.foldlM (code.edge_loop fuel vertex) (false, state.enter vertex) histogram =
        .ok ((found_cycle, next_state), next_histogram))
      (henters : code.enters vertex next_state edge)
      (hinner : Passes graph code fuel edge.vertex next_state next_histogram moment) :
      Passes graph code (fuel + 1) vertex state histogram moment
  | unblock {fuel vertex : Nat} {state last_state : JohnsonState}
      {histogram last_histogram : CycleHistogram}
      (hloop : (graph.outgoing_row vertex).foldlM (code.edge_loop fuel vertex)
        (false, state.enter vertex) histogram = .ok ((true, last_state), last_histogram)) :
      Passes graph code (fuel + 1) vertex state histogram (.unblock vertex last_state)
  | return_ {fuel vertex : Nat} {state last_state : JohnsonState}
      {histogram last_histogram : CycleHistogram} {found_cycle : Bool}
      (hcall : code.circuit fuel vertex state histogram =
        .ok ((found_cycle, last_state), last_histogram)) :
      Passes graph code fuel vertex state histogram (.return_ found_cycle last_state)

def Moment.Holds (graph : GraphView) (succ : Nat → List Nat) (root : Nat) : Moment → Prop
  | .call _ state => JohnsonInvariant succ root state.path state.blocking
  | .unblock vertex state =>
      JohnsonInvariant succ root state.path state.blocking ∧
        FreesExactly (List.range graph.vertex_count) vertex state.path state.blocking
  | .return_ _ state => JohnsonInvariant succ root state.path state.blocking

-- A search that goes step by step like the abstract one, on stacks of some kind.
structure StepsLike (graph : GraphView) (succ : Nat → List Nat) (root : Nat)
    (admits : Nat → AdjacencyEntry → Bool) (code : CircuitCode) (kind : List Nat → Prop) : Prop where
  row : ∀ v, succ v = ((graph.outgoing_row v).filter (admits v)).map (·.vertex)
  push : ∀ stack v, kind stack → kind (v :: stack)
  circuit : ∀ fuel below v marks report, kind (v :: below) →
    Enumeration.circuit succ root none (List.range graph.vertex_count) fuel below v marks =
      some report →
    ∃ events, (code.circuit fuel v ⟨marks, below⟩).Emits (JohnsonState.of_report below report) events
  edge_loop : ∀ fuel below v (row : List AdjacencyEntry) report scanned, kind (v :: below) →
    (∀ edge ∈ row, edge ∈ graph.outgoing_row v) →
    ((row.filter (admits v)).map (·.vertex)).foldlM (scan root none (v :: below)
      (Enumeration.circuit succ root none (List.range graph.vertex_count) fuel (v :: below)))
        report = some scanned →
    ∃ events, (row.foldlM (code.edge_loop fuel v) (JohnsonState.of_report (v :: below) report)).Emits
      (JohnsonState.of_report (v :: below) scanned) events
  enters : ∀ v below marks edge, kind (v :: below) → edge ∈ graph.outgoing_row v →
    code.enters v ⟨marks, v :: below⟩ edge →
      admits v edge = true ∧ edge.vertex ≠ root ∧ marks.blocked edge.vertex = false

variable {graph : GraphView} {succ : Nat → List Nat} {root : Nat}
  {admits : Nat → AdjacencyEntry → Bool} {code : CircuitCode} {kind : List Nat → Prop}

-- Where a run that emits returns, it returns what it should.
theorem emits_result {α : Type} {search : Search α} {a a' : α} {events : List (Nat × Nat)}
    {histogram histogram' : CycleHistogram} (h : search.Emits a events)
    (hrun : search histogram = .ok (a', histogram')) : a' = a := by
  rw [h histogram] at hrun
  cases hrecord : histogram.record events with
  | error error =>
      rw [hrecord] at hrun
      cases hrun
  | ok next =>
      rw [hrecord] at hrun
      exact (Prod.mk.inj (Except.ok.inj hrun)).1.symm

theorem passes_holds (h : StepsLike graph succ root admits code kind)
    (hverts : ∀ v, ∀ next ∈ succ v, next ∈ List.range graph.vertex_count) {fuel v : Nat}
    {below : List Nat} {marks : Blocking Nat} {histogram : CycleHistogram} {moment : Moment}
    (hentered : Entered succ root (List.range graph.vertex_count) fuel below v marks)
    (hkind : kind (v :: below))
    (hpasses : Passes graph code fuel v ⟨marks, below⟩ histogram moment) :
    moment.Holds graph succ root := by
  induction fuel generalizing v below marks histogram with
  | zero =>
      have := (hentered.nodup.subperm hentered.mem).length_le
      have := hentered.fuel
      omega
  | succ fuel ih =>
      cases hpasses with
      | call => exact hentered.blocks.invariant
      | @inner _ _ _ next_state _ _ before after edge found_cycle _ hrow hbefore henters hinner =>
          have hsub : ∀ e ∈ before, e ∈ graph.outgoing_row v := fun e he => by
            rw [hrow]
            exact List.mem_append_left _ he
          have hedge : edge ∈ graph.outgoing_row v := by
            rw [hrow]
            exact List.mem_append_right _ List.mem_cons_self
          have hkeys : (before.filter (admits v)).map (·.vertex) ⊆ succ v := by
            rw [h.row, hrow, List.filter_append, List.map_append]
            exact List.subset_append_left _ _
          obtain ⟨report, hscan, hscanned, hunlisted⟩ := hentered.scanned hverts hkeys
          obtain ⟨events, hemits⟩ := h.edge_loop fuel below v before _ report hkind hsub hscan
          have hresult := emits_result hemits hbefore
          obtain ⟨-, rfl⟩ := Prod.mk.inj hresult
          obtain ⟨hadmits, hne, hfree⟩ := h.enters v below report.marks edge hkind hedge henters
          have hnext : edge.vertex ∈ succ v := by
            rw [h.row]
            exact List.mem_map_of_mem (List.mem_filter.mpr ⟨hedge, hadmits⟩)
          exact ih (hentered.next hverts hnext hscanned hunlisted hne hfree) (h.push _ _ hkind) hinner
      | unblock hloop =>
          obtain ⟨report, hscan, hscanned, hunlisted⟩ :=
            hentered.scanned hverts (List.Subset.refl (succ v))
          rw [h.row] at hscan
          obtain ⟨events, hemits⟩ :=
            h.edge_loop fuel below v _ _ report hkind (fun edge he => he) hscan
          have hresult := emits_result hemits hloop
          obtain ⟨-, rfl⟩ := Prod.mk.inj hresult
          exact ⟨hscanned.blocks.invariant, hentered.frees hscanned hunlisted⟩
      | return_ hcall =>
          obtain ⟨report, hcircuit, hexplored⟩ := hentered.circuit hverts
          obtain ⟨events, hemits⟩ := h.circuit (fuel + 1) below v marks report hkind hcircuit
          have hresult := emits_result hemits hcall
          obtain ⟨-, rfl⟩ := Prod.mk.inj hresult
          exact hexplored.blocks.invariant

section Searches

theorem unlisted_none (root : Nat) : Unlisted root (Blocking.none : Blocking Nat) := by
  intro x hx
  cases hx

theorem entered_start {below : List Nat} {v : Nat} (hroot : ∀ x ∈ below, x = root)
    (h : OnPath graph root (v :: below)) :
    Entered succ root (List.range graph.vertex_count) graph.vertex_count below v Blocking.none where
  blocks := blocks_none below hroot
  unlisted := unlisted_none root
  free := rfl
  nodup := h.nodup
  mem := h.mem
  fuel := by
    rw [List.length_range, List.length_cons]
    omega

theorem static_steps_like (hw : graph.WellFormed) (root : Nat) :
    StepsLike graph (static_successors graph root) root (fun _ edge => root ≤ edge.vertex)
      (JohnsonSearch.code graph root) (root ∈ ·) where
  row v := rfl
  push stack v h := List.mem_cons_of_mem v h
  circuit fuel below v marks report hkind h :=
    ⟨_, JohnsonSearch.circuit_emits hw fuel below v marks report hkind h⟩
  edge_loop fuel below v row report scanned hkind hrow h := by
    have hsimulates : Simulates (Enumeration.circuit (static_successors graph root) root none
        (List.range graph.vertex_count) fuel (v :: below)) (v :: below)
        (JohnsonSearch.circuit graph none root fuel) := fun next marks report hr =>
      JohnsonSearch.circuit_emits hw fuel (v :: below) next marks report
        (List.mem_cons_of_mem next hkind) hr
    obtain ⟨events, -, hemits⟩ := JohnsonSearch.edge_loop_emits hw hkind hsimulates hrow h
    exact ⟨events, hemits⟩
  enters v below marks edge hkind hedge henters := by
    obtain ⟨-, hskip⟩ := henters
    rw [not_or] at hskip
    refine ⟨decide_eq_true (by omega), by omega, Bool.eq_false_iff.mpr hskip.2⟩

theorem window_steps_like (hw : graph.WellFormed) {width start : Int} (h0 : 0 ≤ width)
    (hs : start ≤ MAX_TIMESTAMP - width) (root : Nat) :
    StepsLike graph (window_successors graph width root start) root
      (admitted graph width root start) (JohnsonTimeWindowSearch.code graph width root start)
      (2 ≤ ·.length) where
  row v := rfl
  push stack v h := Nat.le_succ_of_le h
  circuit fuel below v marks report hkind h :=
    ⟨_, JohnsonTimeWindowSearch.circuit_emits hw h0 hs fuel below v marks report hkind h⟩
  edge_loop fuel below v row report scanned hkind hrow h := by
    have hsimulates : Simulates (Enumeration.circuit (window_successors graph width root start) root
        none (List.range graph.vertex_count) fuel (v :: below)) (v :: below)
        (JohnsonTimeWindowSearch.circuit graph width none root start fuel) :=
      fun next marks report hr =>
        JohnsonTimeWindowSearch.circuit_emits hw h0 hs fuel (v :: below) next marks report
          (Nat.le_succ_of_le hkind) hr
    obtain ⟨events, -, hemits⟩ :=
      JohnsonTimeWindowSearch.edge_loop_emits hw h0 hs hkind hsimulates hrow h
    exact ⟨events, hemits⟩
  enters v below marks edge hkind hedge henters := by
    obtain ⟨htimestamp, hroot, hfree⟩ := henters
    rw [edge_has_timestamp_eq hw h0 hs root v edge hedge] at htimestamp
    exact ⟨Except.ok.inj htimestamp, fun hr => hroot ⟨hr, hkind⟩, Bool.eq_false_iff.mpr hfree⟩

-- A test that answers has a window.
theorem window_of_edge {width start : Int} {edge : AdjacencyEntry} {v : Nat} {answer : Bool}
    (h : edge_has_timestamp graph width root start edge v = .ok answer) :
    0 ≤ width ∧ start ≤ MAX_TIMESTAMP - width := by
  obtain ⟨range, hrange, -⟩ := bind_ok h
  obtain ⟨window_end, hend, -⟩ := bind_ok hrange
  obtain ⟨h0, hs, -⟩ := of_checked_window_end hend
  exact ⟨h0, hs⟩

theorem window_of_loop {width start : Int} {fuel v : Nat} {row : List AdjacencyEntry}
    {found : Bool} {state : JohnsonState} {result : Bool × JohnsonState}
    {histogram histogram' : CycleHistogram} (hrow : row ≠ [])
    (h : row.foldlM (JohnsonTimeWindowSearch.edge_loop graph width none root start fuel v)
      (found, state) histogram = .ok (result, histogram')) :
    0 ≤ width ∧ start ≤ MAX_TIMESTAMP - width := by
  cases row with
  | nil => exact absurd rfl hrow
  | cons edge row =>
      rw [List.foldlM_cons] at h
      obtain ⟨first, hfirst, -⟩ := bind_ok h
      cases htimestamp : edge_has_timestamp graph width root start edge v with
      | ok answer => exact window_of_edge htimestamp
      | error error =>
          rw [JohnsonTimeWindowSearch.edge_loop, htimestamp] at hfirst
          cases hfirst

-- A vertex without successors that is the only one blocked.
theorem invariant_of_sink {v : Nat} (hv : succ v = []) :
    JohnsonInvariant succ root [root] ((Blocking.none : Blocking Nat).mark v true) := by
  have honly : ∀ x, ((Blocking.none : Blocking Nat).mark v true).blocked x = true → succ x = [] := by
    intro x hx
    rw [Blocking.mark_blocked] at hx
    split_ifs at hx with hxv
    · rw [hxv, hv]
    · cases hx
  refine ⟨fun x hx hne => absurd (List.mem_singleton.mp hx) hne, fun x hx _ y hy => ?_,
    fun x hx _ hr => ?_, fun x hx _ => meets_of_not_reaches fun hreaches => ?_⟩
  · rw [honly x hx] at hy
    cases hy
  · rw [honly x hx] at hr
    cases hr
  · cases hreaches with
    | close h =>
        rw [honly x hx] at h
        cases h
    | step h _ _ =>
        rw [honly x hx] at h
        cases h

-- Where every test throws, only a vertex without edges is left.
theorem window_passes_holds_of_invalid {width start : Int} {fuel v : Nat}
    {histogram : CycleHistogram} {moment : Moment}
    (hno : ¬(0 ≤ width ∧ start ≤ MAX_TIMESTAMP - width))
    (hpasses : Passes graph (JohnsonTimeWindowSearch.code graph width root start) fuel v
      (JohnsonState.reset [root]) histogram moment) :
    moment.Holds graph (window_successors graph width root start) root := by
  have hblocks : Blocks (window_successors graph width root start) root [] [root] Blocking.none :=
    blocks_none [root] fun x hx => List.mem_singleton.mp hx
  cases hpasses with
  | call => exact hblocks.invariant
  | inner _ _ henters _ => exact absurd (window_of_edge henters.1) hno
  | unblock hloop =>
      by_cases hrow : graph.outgoing_row v = []
      · rw [hrow] at hloop
        cases hloop
      · exact absurd (window_of_loop hrow hloop) hno
  | return_ hcall =>
      cases fuel with
      | zero => cases hcall
      | succ fuel =>
          obtain ⟨last, hloop, hleave⟩ := bind_ok hcall
          by_cases hrow : graph.outgoing_row v = []
          · have hsucc : window_successors graph width root start v = [] := by
              rw [window_successors, hrow]
              rfl
            have hadd : JohnsonTimeWindowSearch.add_to_blocked_lists graph width root start v
                ((JohnsonState.reset [root]).enter v) = .ok ((JohnsonState.reset [root]).enter v) := by
              rw [JohnsonTimeWindowSearch.add_to_blocked_lists, hrow]
              rfl
            rw [hrow] at hloop
            obtain rfl := Except.ok.inj hloop
            change (Search.ofExcept (JohnsonTimeWindowSearch.add_to_blocked_lists graph width root
              start v ((JohnsonState.reset [root]).enter v)) >>= fun state =>
                pure (false, state.pop_back)) histogram = _ at hleave
            rw [hadd] at hleave
            obtain ⟨-, rfl⟩ := Prod.mk.inj (Prod.mk.inj (Except.ok.inj hleave)).1
            exact invariant_of_sink hsucc
          · exact absurd (window_of_loop hrow hloop) hno

-- The admissible successors of the graph itself: all entries of a row, also where the code
-- reads the end of the row at another index.
def static_arcs (graph : GraphView) (root v : Nat) : List Nat :=
  ((graph.outgoing_entries v).filter fun edge => root ≤ edge.vertex).map (·.vertex)

def window_arcs (graph : GraphView) (width : Int) (root : Nat) (start : Int) (v : Nat) : List Nat :=
  ((graph.outgoing_entries v).filter (admitted graph width root start v)).map (·.vertex)

theorem static_arcs_eq (hw : graph.WellFormed) (root : Nat) :
    static_arcs graph root = static_successors graph root := by
  funext v
  rw [static_arcs, static_successors, hw.whole]

theorem window_arcs_eq (hw : graph.WellFormed) (width : Int) (root : Nat) (start : Int) :
    window_arcs graph width root start = window_successors graph width root start := by
  funext v
  rw [window_arcs, window_successors, hw.whole]

-- The calls that the searches make from every root, and from every start event, keep the
-- invariant at all their moments, whatever the histogram is.
structure KeepsBlockingInvariant (graph : GraphView) : Prop where
  static : ∀ root < graph.vertex_count, ∀ histogram moment,
    Passes graph (JohnsonSearch.code graph root) graph.vertex_count root (JohnsonState.reset [])
      histogram moment →
    moment.Holds graph (static_arcs graph root) root
  window : ∀ width, ∀ start ∈ starts graph, ∀ histogram moment,
    Passes graph (JohnsonTimeWindowSearch.code graph width start.root (start.time graph))
      graph.vertex_count start.edge.vertex (JohnsonState.reset [start.root]) histogram moment →
    moment.Holds graph (window_arcs graph width start.root (start.time graph)) start.root

theorem johnson_blocking_invariant (hp : Parsed graph) (hids : graph.vertex_count < 2 ^ 32) :
    KeepsBlockingInvariant graph := by
  have hw := hp.well_formed hids
  constructor
  · intro root hroot histogram moment hpasses
    rw [static_arcs_eq hw]
    refine passes_holds (static_steps_like hw root)
      (fun v next hnext => (mem_static_successors hw hnext).1) ?_ List.mem_cons_self hpasses
    exact entered_start (fun x hx => by cases hx) (on_path_root hroot)
  · intro width start hstart histogram moment hpasses
    rw [window_arcs_eq hw]
    by_cases hvalid : 0 ≤ width ∧ start.time graph ≤ MAX_TIMESTAMP - width
    · refine passes_holds (window_steps_like hw hvalid.1 hvalid.2 start.root)
        (fun v next hnext => (mem_window_successors hw hnext).1) ?_ ?_ hpasses
      · exact entered_start (fun x hx => List.mem_singleton.mp hx) (on_path_start hw hstart)
      · exact Nat.le_refl 2
    · exact window_passes_holds_of_invalid hvalid hpasses

theorem johnson_blocking_invariant_sample : KeepsBlockingInvariant (view_of sample_rows) :=
  johnson_blocking_invariant sample_parsed (by decide)

-- A call on a vertex whose row is read as empty leaves the vertex blocked.
theorem circuit_of_row {vertex : Nat} (hrow : graph.outgoing_row vertex = []) (fuel : Nat)
    (state : JohnsonState) (histogram : CycleHistogram) :
    JohnsonSearch.circuit graph none root (fuel + 1) vertex state histogram =
      .ok ((false, (state.enter vertex).pop_back), histogram) := by
  have hadd : JohnsonSearch.add_to_blocked_lists graph root vertex (state.enter vertex) =
      state.enter vertex := by
    unfold JohnsonSearch.add_to_blocked_lists
    rw [hrow]
    rfl
  rw [JohnsonSearch.circuit, hrow]
  change Except.ok ((false, (JohnsonSearch.add_to_blocked_lists graph root vertex
    (state.enter vertex)).pop_back), histogram) = _
  rw [hadd]

-- The search from the last vertex but one enters the last and leaves it blocked, although an
-- admissible edge leads from there to the root.
theorem johnson_blocking_invariant_lost :
    Parsed back_view ∧ ¬KeepsBlockingInvariant back_view := by
  refine ⟨back_view_parsed, fun h => ?_⟩
  obtain ⟨edge, after, hrow, hedge⟩ := back_view_row
  obtain ⟨fuel, hfuel⟩ : ∃ fuel, back_view.vertex_count = fuel + 2 :=
    ⟨2 ^ 32 - 2, back_view_vertex_count⟩
  have hroot : 2 ^ 32 - 2 < back_view.vertex_count := by
    rw [back_view_vertex_count]
    decide
  have hpasses : Passes back_view (JohnsonSearch.code back_view (2 ^ 32 - 2)) back_view.vertex_count
      (2 ^ 32 - 2) (JohnsonState.reset []) ∅
      (.return_ false ((((JohnsonState.reset []).enter (2 ^ 32 - 2)).enter (2 ^ 32 - 1)).pop_back)) := by
    rw [hfuel]
    refine @Passes.inner _ _ _ _ _ _ _ _ [] after edge false _ hrow rfl ?_
      (@Passes.return_ _ _ _ _ _ _ _ ∅ _ ?_)
    · change ¬(edge.vertex = 2 ^ 32 - 2 ∧ _) ∧ ¬(edge.vertex ≤ 2 ^ 32 - 2 ∨ _)
      rw [hedge]
      simp [JohnsonState.enter, JohnsonState.reset, Blocking.none, Blocking.mark]
    · rw [hedge]
      exact circuit_of_row back_view_last _ _ _
  have hinvariant := h.static _ hroot _ _ hpasses
  obtain ⟨entry, hentry, htarget, -⟩ := back_view_event
  refine hinvariant.no_root (2 ^ 32 - 1) ?_ ?_ ?_
  · simp [JohnsonState.pop_back, JohnsonState.enter, Blocking.mark]
  · simp [JohnsonState.pop_back, JohnsonState.enter, JohnsonState.reset]
  · refine List.mem_map.mpr ⟨entry, List.mem_filter.mpr ⟨hentry, ?_⟩, htarget⟩
    rw [htarget]
    simp

end Searches

end CycleEnum.Sequential
