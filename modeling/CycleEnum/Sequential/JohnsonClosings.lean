import CycleEnum.Sequential.Johnson
import CycleEnum.Enumeration.JohnsonCap

namespace CycleEnum.Sequential

open Enumeration

variable {graph : GraphView} {cap : Option Nat} {root : Nat}

-- The state of the bounded search when its path is `stack`.
def JohnsonState.at (stack : List Nat) : JohnsonState :=
  ⟨⟨fun v => decide (v ∈ stack), fun _ => []⟩, stack⟩

theorem JohnsonState.enter_at (stack : List Nat) (v : Nat) :
    (JohnsonState.at stack).enter v = JohnsonState.at (v :: stack) := by
  have h : (JohnsonState.at stack).blocking.mark v true = (JohnsonState.at (v :: stack)).blocking := by
    simp only [JohnsonState.at, Blocking.mark, Blocking.mk.injEq, and_true]
    funext x
    rw [Function.update_apply]
    by_cases hx : x = v <;> simp [hx]
  rw [JohnsonState.enter, h]
  rfl

theorem JohnsonState.leave_at {stack : List Nat} {v : Nat} (hv : v ∉ stack) :
    (⟨(JohnsonState.at (v :: stack)).blocking.mark v false,
      (JohnsonState.at (v :: stack)).path.tail⟩ : JohnsonState) = JohnsonState.at stack := by
  simp only [JohnsonState.at, Blocking.mark, List.tail_cons, JohnsonState.mk.injEq,
    Blocking.mk.injEq, and_true]
  funext x
  rw [Function.update_apply]
  by_cases hx : x = v
  · simp [hx, hv]
  · simp [hx]

-- A report of the abstract search as the value and state of a call.
def JohnsonState.of_report (stack : List Nat) (report : Report Nat) : Bool × JohnsonState :=
  (report.found, ⟨report.marks, stack⟩)

-- The call for `next` follows the abstract search from every marking.
def Simulates (enter : Nat → Blocking Nat → Option (Report Nat)) (stack : List Nat)
    (circuit : Nat → JohnsonState → Search (Bool × JohnsonState)) : Prop :=
  ∀ next marks report, enter next marks = some report →
    (circuit next ⟨marks, stack⟩).Emits (JohnsonState.of_report stack report)
      (report.closed.map closing_event)

theorem visit_edge_emits {stack : List Nat}
    {circuit : Nat → JohnsonState → Search (Bool × JohnsonState)}
    {enter : Nat → Blocking Nat → Option (Report Nat)} (hf : Simulates enter stack circuit)
    {report report' : Report Nat} {next : Nat} (hlen : next = root → 2 ≤ stack.length)
    (h : scan root cap stack enter report next = some report') :
    ∃ events, report'.closed.map closing_event = report.closed.map closing_event ++ events ∧
      (visit_edge cap root circuit report.found ⟨report.marks, stack⟩ next).Emits
        (JohnsonState.of_report stack report') events := by
  unfold scan at h
  unfold visit_edge
  dsimp only
  split_ifs at h with hr hb hc
  · obtain rfl := Option.some.inj h
    refine ⟨[closing_event stack], by simp, ?_⟩
    rw [if_pos ⟨hr, hlen hr⟩]
    exact (Search.emits_increment _ 1).then (Search.emits_pure _)
  · obtain rfl := Option.some.inj h
    refine ⟨[], by simp, ?_⟩
    rw [if_neg fun hc => hr hc.1, if_pos hb]
    exact Search.emits_pure _
  · obtain rfl := Option.some.inj h
    refine ⟨[], by simp, ?_⟩
    rw [if_neg fun hc => hr hc.1, if_neg hb, if_pos hc]
    exact Search.emits_pure _
  · obtain ⟨inner, hi, he⟩ := Option.bind_eq_some_iff.mp h
    obtain rfl := Option.some.inj he
    refine ⟨inner.closed.map closing_event, by simp, ?_⟩
    rw [if_neg fun hc => hr hc.1, if_neg hb, if_neg hc]
    exact (hf next report.marks inner hi).then (Search.emits_pure _)

-- Registering a vertex with the successors that an edge test lets through.
theorem foldl_add_dependent (vertex root : Nat) (row : List AdjacencyEntry)
    (admits skip : AdjacencyEntry → Bool)
    (hskip : ∀ edge ∈ row, skip edge = !(admits edge && decide (edge.vertex ≠ root)))
    (blocking : Blocking Nat) :
    row.foldl (fun blocking edge =>
        if skip edge then blocking else JohnsonState.add_dependent vertex blocking edge.vertex)
        blocking =
      blocking.register vertex ((((row.filter admits).map (·.vertex))).filter (· ≠ root)) := by
  induction row generalizing blocking with
  | nil => rfl
  | cons edge row ih =>
      have hrest := ih fun e he => hskip e (List.mem_cons_of_mem _ he)
      rw [List.foldl_cons, hskip edge (by simp), hrest]
      by_cases ha : admits edge = true
      · by_cases hr : edge.vertex = root
        · simp [ha, hr]
        · simp [ha, hr, Blocking.register, JohnsonState.add_dependent]
      · simp [ha]

theorem unblock_emits (state : JohnsonState) {v : Nat} {marks : Blocking Nat}
    (h : state.blocking.unblock (List.range graph.vertex_count) v = some marks) :
    (state.unblock graph v).Emits { state with blocking := marks } [] := by
  rw [JohnsonState.unblock, h]
  exact Search.emits_finished _

-- The end of a call: unblock the vertex or register it.
theorem leave_emits {succ : Nat → List Nat} {scanned report : Report Nat} {v : Nat}
    {below : List Nat} {register : Search JohnsonState}
    (hl : leave succ root (List.range graph.vertex_count) v scanned = some report)
    (hr : register.Emits
      ⟨scanned.marks.register v ((succ v).filter (· ≠ root)), v :: below⟩ []) :
    report.closed = scanned.closed ∧
      Search.Emits (do
        let state ←
          if scanned.found then JohnsonState.unblock graph v ⟨scanned.marks, v :: below⟩
          else register
        return (scanned.found, state.pop_back)) (JohnsonState.of_report below report) [] := by
  unfold leave at hl
  split_ifs at hl with hf
  · obtain ⟨marks, hm, he⟩ := Option.map_eq_some_iff.mp hl
    subst he
    rw [if_pos hf]
    exact ⟨rfl, (unblock_emits ⟨scanned.marks, v :: below⟩ hm).then (Search.emits_pure _)⟩
  · obtain rfl := Option.some.inj hl
    rw [if_neg hf]
    exact ⟨rfl, hr.then (Search.emits_pure _)⟩

namespace JohnsonSearch

theorem add_to_blocked_lists_eq (state : JohnsonState) (v : Nat) :
    add_to_blocked_lists graph root v state =
      ⟨state.blocking.register v ((static_successors graph root v).filter (· ≠ root)),
        state.path⟩ := by
  rw [add_to_blocked_lists, static_successors, ← foldl_add_dependent v root _ _
    (fun edge => edge.vertex ≤ root)]
  · simp
  · intro edge _
    by_cases hr : edge.vertex = root
    · simp [hr]
    · by_cases hle : edge.vertex ≤ root
      · have : ¬root ≤ edge.vertex := by omega
        simp [hle, this]
      · have : root ≤ edge.vertex := by omega
        simp [hle, hr, this]

-- The loop body of `circuit`. On a successor that is not below the root it is
-- that of the windowed search.
def edge_loop (graph : GraphView) (cap : Option Nat) (root fuel : Nat) :
    Bool × JohnsonState → AdjacencyEntry → Search (Bool × JohnsonState) :=
  fun (found_cycle, state) edge =>
    if edge.vertex = root ∧ 2 ≤ state.path.length then do
      Search.increment (length_of_size state.path.length) 1
      return (true, state)
    else if edge.vertex ≤ root ∨ state.blocking.blocked edge.vertex then return (found_cycle, state)
    else if cut cap state.path.length then return (found_cycle, state)
    else do
      let (found, state) ← circuit graph cap root fuel edge.vertex state
      return (found_cycle || found, state)

theorem edge_loop_eq {fuel : Nat} {found_cycle : Bool} {state : JohnsonState}
    {edge : AdjacencyEntry} (hge : root ≤ edge.vertex)
    (hlen : edge.vertex = root → 2 ≤ state.path.length) :
    edge_loop graph cap root fuel (found_cycle, state) edge =
      visit_edge cap root (circuit graph cap root fuel) found_cycle state edge.vertex := by
  by_cases hr : edge.vertex = root
  · rw [edge_loop, visit_edge, if_pos ⟨hr, hlen hr⟩, if_pos ⟨hr, hlen hr⟩]
  · have hle : ¬edge.vertex ≤ root := by omega
    simp only [edge_loop, visit_edge, hr, hle, false_and, if_false, false_or]

-- Any part of the loop over a row goes step by step like the abstract loop.
theorem edge_loop_emits (hw : graph.WellFormed) {fuel v : Nat} {below : List Nat}
    (hroot : root ∈ v :: below)
    (hsimulates : Simulates (Enumeration.circuit (static_successors graph root) root cap
      (List.range graph.vertex_count) fuel (v :: below)) (v :: below) (circuit graph cap root fuel))
    {row : List AdjacencyEntry} (hrow : ∀ edge ∈ row, edge ∈ graph.outgoing_row v)
    {report scanned : Report Nat}
    (h : ((row.filter (root ≤ ·.vertex)).map (·.vertex)).foldlM (scan root cap (v :: below)
      (Enumeration.circuit (static_successors graph root) root cap (List.range graph.vertex_count)
        fuel (v :: below))) report = some scanned) :
    ∃ events, scanned.closed.map closing_event = report.closed.map closing_event ++ events ∧
      (row.foldlM (edge_loop graph cap root fuel) (JohnsonState.of_report (v :: below) report)).Emits
        (JohnsonState.of_report (v :: below) scanned) events :=
  Search.emits_foldlM (edge_loop graph cap root fuel)
    (fun report : Report Nat => report.closed.map closing_event)
    (JohnsonState.of_report (v :: below))
    (fun state edge _ ha => by
      have hlt : edge.vertex < root := by simpa using ha
      rw [edge_loop, JohnsonState.of_report, if_neg fun hc => by omega,
        if_pos (Or.inl (Nat.le_of_lt hlt))]
      exact Search.emits_pure _)
    (fun report report' edge he ha hscan => by
      have hge : root ≤ edge.vertex := by simpa using ha
      have hlen : edge.vertex = root → 2 ≤ (v :: below).length := fun hr => by
        have hv : root ≠ v := fun hv => hw.no_loop v edge (hrow edge he) (hr.trans hv)
        have := List.length_pos_of_mem ((List.mem_cons.mp hroot).resolve_left hv)
        simp only [List.length_cons]
        omega
      obtain ⟨events, ho, hv⟩ := visit_edge_emits hsimulates hlen hscan
      exact ⟨events, ho, by rwa [JohnsonState.of_report, edge_loop_eq hge hlen]⟩)
    h

-- The code's search goes step by step like the abstract one and increments once
-- for every stack that one lists.
theorem circuit_emits (hw : graph.WellFormed) (fuel : Nat) (below : List Nat) (v : Nat)
    (marks : Blocking Nat) (report : Report Nat) (hroot : root ∈ v :: below)
    (h : Enumeration.circuit (static_successors graph root) root cap
      (List.range graph.vertex_count) fuel below v marks = some report) :
    (circuit graph cap root fuel v ⟨marks, below⟩).Emits (JohnsonState.of_report below report)
      (report.closed.map closing_event) := by
  induction fuel generalizing below v marks report with
  | zero => simp [Enumeration.circuit] at h
  | succ fuel ih =>
      obtain ⟨scanned, hs, hl⟩ := Option.bind_eq_some_iff.mp h
      have hsimulates : Simulates (Enumeration.circuit (static_successors graph root) root cap
          (List.range graph.vertex_count) fuel (v :: below)) (v :: below)
          (circuit graph cap root fuel) := fun next marks report hr =>
        ih (v :: below) next marks report (List.mem_cons_of_mem _ hroot) hr
      obtain ⟨events, ho, he⟩ := edge_loop_emits hw hroot hsimulates (fun _ he => he) hs
      have hreg : (pure (add_to_blocked_lists graph root v ⟨scanned.marks, v :: below⟩) :
          Search JohnsonState).Emits ⟨scanned.marks.register v
            ((static_successors graph root v).filter (· ≠ root)), v :: below⟩ [] := by
        rw [add_to_blocked_lists_eq]
        exact Search.emits_pure _
      obtain ⟨hclosed, hleave⟩ := leave_emits hl hreg
      rw [hclosed, ho]
      exact he.then hleave

-- The loop body of `circuit_bounded`.
def bounded_loop (graph : GraphView) (cap : Option Nat) (root fuel : Nat) :
    Bool × JohnsonState → AdjacencyEntry → Search (Bool × JohnsonState) :=
  fun (found_cycle, state) edge =>
    if edge.vertex = root ∧ 2 ≤ state.path.length then do
      Search.increment (length_of_size state.path.length) 1
      return (true, state)
    else if edge.vertex ≤ root ∨ state.blocking.blocked edge.vertex then return (found_cycle, state)
    else if cut cap state.path.length then return (found_cycle, state)
    else do
      let (found, state) ← circuit_bounded graph cap root fuel edge.vertex state
      return (found_cycle || found, state)

theorem foldlM_append (row : List Nat) (f : Nat → List (List Nat)) (found : List (List Nat)) :
    row.foldlM (fun found next => some (found ++ f next)) found = some (found ++ row.flatMap f) := by
  induction row generalizing found with
  | nil => simp
  | cons next row ih => rw [List.foldlM_cons]; simpa using ih (found ++ f next)

theorem not_isEmpty_append (found more : List (List Nat)) :
    (!(found ++ more).isEmpty) = (!found.isEmpty || !more.isEmpty) := by
  cases found <;> simp

-- One round of the bounded loop, if the search from the vertex ahead is right.
theorem bounded_loop_emits (cap : Option Nat) (hw : graph.WellFormed) {fuel v : Nat}
    {below : List Nat} {edge : AdjacencyEntry} (h : OnPath graph root (v :: below))
    (he : edge ∈ graph.outgoing_row v) (hge : root ≤ edge.vertex)
    (hrec : edge.vertex ∉ v :: below →
      (circuit_bounded graph cap root fuel edge.vertex (JohnsonState.at (v :: below))).Emits
        (!(closings (static_successors graph root) root cap fuel
          (edge.vertex :: v :: below)).isEmpty, JohnsonState.at (v :: below))
        ((closings (static_successors graph root) root cap fuel
          (edge.vertex :: v :: below)).map closing_event))
    {closed : List (List Nat)} (hclosed : closed = branch root cap (v :: below)
      (fun next => closings (static_successors graph root) root cap fuel (next :: v :: below))
      edge.vertex) (found : List (List Nat)) :
    (bounded_loop graph cap root fuel (!found.isEmpty, JohnsonState.at (v :: below)) edge).Emits
      (!(found ++ closed).isEmpty, JohnsonState.at (v :: below)) (closed.map closing_event) := by
  subst hclosed
  have hpath : (JohnsonState.at (v :: below)).path = v :: below := rfl
  rw [bounded_loop, branch]
  by_cases hr : edge.vertex = root
  · have hlen := h.two_le fun hv => hw.no_loop v edge he (hr.trans hv.symm)
    have htrue : (!(found ++ [v :: below]).isEmpty) = true := by simp
    rw [if_pos ⟨hr, hpath ▸ hlen⟩, if_pos hr, htrue]
    exact (Search.emits_increment _ 1).then (Search.emits_pure _)
  have hle : ¬edge.vertex ≤ root := by omega
  rw [if_neg fun hc => hr hc.1, if_neg hr]
  by_cases hm : edge.vertex ∈ v :: below
  · rw [if_pos (Or.inr (by simpa [JohnsonState.at] using hm)), if_pos hm, List.append_nil]
    exact Search.emits_pure _
  rw [if_neg (by simpa [JohnsonState.at, hle] using hm), if_neg hm]
  cases hc : cut cap (v :: below).length with
  | true =>
      rw [hpath, if_pos hc, if_pos rfl, List.append_nil]
      exact Search.emits_pure _
  | false =>
      rw [if_neg (by rw [hpath, hc]; simp), if_neg (by simp)]
      refine (hrec hm).then ?_
      rw [not_isEmpty_append]
      exact Search.emits_pure _

-- The bounded search blocks exactly its path and lists every closing.
theorem circuit_bounded_emits (cap : Option Nat) (hw : graph.WellFormed) (fuel : Nat) (v : Nat)
    (below : List Nat) (h : OnPath graph root (v :: below))
    (hfuel : graph.vertex_count < (v :: below).length + fuel) :
    (circuit_bounded graph cap root fuel v (JohnsonState.at below)).Emits
      (!(closings (static_successors graph root) root cap fuel (v :: below)).isEmpty,
        JohnsonState.at below)
      ((closings (static_successors graph root) root cap fuel (v :: below)).map closing_event) := by
  induction fuel generalizing v below with
  | zero => have := h.length_le; omega
  | succ fuel ih =>
      have hv : v ∉ below := (List.nodup_cons.mp h.nodup).1
      have hrow := foldlM_append (static_successors graph root v) (branch root cap (v :: below)
        fun next => closings (static_successors graph root) root cap fuel (next :: v :: below)) []
      obtain ⟨events, ho, he⟩ := Search.emits_foldlM (bounded_loop graph cap root fuel)
        (fun found => found.map closing_event)
        (fun found : List (List Nat) => (!found.isEmpty, JohnsonState.at (v :: below)))
        (fun found edge he ha => by
          have hlt : edge.vertex < root := by simpa using ha
          rw [bounded_loop, if_neg fun hc => by omega, if_pos (Or.inl (Nat.le_of_lt hlt))]
          exact Search.emits_pure _)
        (fun found found' edge he ha hstep => by
          obtain rfl := Option.some.inj hstep
          refine ⟨_, List.map_append, bounded_loop_emits cap hw h he (by simpa using ha)
            (fun hm => ih edge.vertex (v :: below) ?_ ?_) rfl found⟩
          · exact h.push hm (List.mem_range.mpr (hw.bounded v edge he).2)
          · simp only [List.length_cons] at hfuel ⊢
            omega)
        hrow
      have hclosings : closings (static_successors graph root) root cap (fuel + 1) (v :: below) =
          [] ++ (static_successors graph root v).flatMap (branch root cap (v :: below)
            fun next => closings (static_successors graph root) root cap fuel (next :: v :: below)) :=
        rfl
      rw [hclosings, ho, circuit_bounded, JohnsonState.enter_at]
      refine he.then ?_
      rw [← JohnsonState.leave_at hv]
      exact Search.emits_pure _

end JohnsonSearch

theorem foldlM_ok {α β : Type} (row : List β) (visit : α → β → Except Error α) (step : α → β → α)
    (h : ∀ a, ∀ x ∈ row, visit a x = .ok (step a x)) (a : α) :
    row.foldlM visit a = .ok (row.foldl step a) := by
  induction row generalizing a with
  | nil => rfl
  | cons x row ih =>
      rw [List.foldlM_cons, h a x (by simp)]
      exact ih (fun a y hy => h a y (List.mem_cons_of_mem _ hy)) _

namespace JohnsonTimeWindowSearch

variable {width : Int} {start : Int}

theorem add_to_blocked_lists_eq (hw : graph.WellFormed) (h0 : 0 ≤ width)
    (hs : start ≤ MAX_TIMESTAMP - width) (root : Nat) (state : JohnsonState) (v : Nat) :
    add_to_blocked_lists graph width root start v state =
      .ok ⟨state.blocking.register v
        ((window_successors graph width root start v).filter (· ≠ root)), state.path⟩ := by
  have hloop := foldlM_ok (graph.outgoing_row v)
    (fun (blocking : Blocking Nat) edge => do
      if edge.vertex = root then return blocking
      else if !(← edge_has_timestamp graph width root start edge v) then return blocking
      else return JohnsonState.add_dependent v blocking edge.vertex)
    (fun blocking edge =>
      if edge.vertex = root || !admitted graph width root start v edge then blocking
      else JohnsonState.add_dependent v blocking edge.vertex)
    (fun blocking edge he => by
      rw [edge_has_timestamp_eq hw h0 hs root v edge he]
      by_cases hr : edge.vertex = root
      · simp [hr, pure, Except.pure]
      · cases ha : admitted graph width root start v edge <;>
          simp [hr, bind, Except.bind, pure, Except.pure])
    state.blocking
  rw [add_to_blocked_lists, hloop, window_successors, ← foldl_add_dependent v root _ _
    (fun edge => edge.vertex = root || !admitted graph width root start v edge)]
  · rfl
  · intro edge _
    by_cases hr : edge.vertex = root <;> simp [hr]

-- The loop body of `circuit`.
def edge_loop (graph : GraphView) (width : Int) (cap : Option Nat) (root : Nat) (start : Int)
    (fuel vertex : Nat) : Bool × JohnsonState → AdjacencyEntry → Search (Bool × JohnsonState) :=
  fun (found_cycle, state) edge => do
    let admitted ← Search.ofExcept (edge_has_timestamp graph width root start edge vertex)
    if !admitted then return (found_cycle, state)
    else
      visit_edge cap root (circuit graph width cap root start fuel) found_cycle state edge.vertex

-- Any part of the loop over a row goes step by step like the abstract loop.
theorem edge_loop_emits (hw : graph.WellFormed) (h0 : 0 ≤ width)
    (hs : start ≤ MAX_TIMESTAMP - width) {fuel v : Nat} {below : List Nat}
    (hlen : 2 ≤ (v :: below).length)
    (hsimulates : Simulates (Enumeration.circuit (window_successors graph width root start) root cap
      (List.range graph.vertex_count) fuel (v :: below)) (v :: below)
      (circuit graph width cap root start fuel))
    {row : List AdjacencyEntry} (hrow : ∀ edge ∈ row, edge ∈ graph.outgoing_row v)
    {report scanned : Report Nat}
    (h : ((row.filter (admitted graph width root start v)).map (·.vertex)).foldlM
      (scan root cap (v :: below) (Enumeration.circuit (window_successors graph width root start) root
        cap (List.range graph.vertex_count) fuel (v :: below))) report = some scanned) :
    ∃ events, scanned.closed.map closing_event = report.closed.map closing_event ++ events ∧
      (row.foldlM (edge_loop graph width cap root start fuel v)
        (JohnsonState.of_report (v :: below) report)).Emits
          (JohnsonState.of_report (v :: below) scanned) events :=
  Search.emits_foldlM (edge_loop graph width cap root start fuel v)
    (fun report : Report Nat => report.closed.map closing_event)
    (JohnsonState.of_report (v :: below))
    (fun report edge he ha => by
      have hts := Search.emits_ofExcept (edge_has_timestamp_eq hw h0 hs root v edge (hrow edge he))
      refine hts.silent ?_
      rw [ha]
      exact Search.emits_pure _)
    (fun report report' edge he ha hnext => by
      have hts := Search.emits_ofExcept (edge_has_timestamp_eq hw h0 hs root v edge (hrow edge he))
      obtain ⟨events, ho, hv⟩ := visit_edge_emits hsimulates (fun _ => hlen) hnext
      refine ⟨events, ho, hts.silent ?_⟩
      rw [ha]
      exact hv)
    h

theorem circuit_emits (hw : graph.WellFormed) (h0 : 0 ≤ width)
    (hs : start ≤ MAX_TIMESTAMP - width) (fuel : Nat) (below : List Nat) (v : Nat)
    (marks : Blocking Nat) (report : Report Nat) (hlen : 2 ≤ (v :: below).length)
    (h : Enumeration.circuit (window_successors graph width root start) root cap
      (List.range graph.vertex_count) fuel below v marks = some report) :
    (circuit graph width cap root start fuel v ⟨marks, below⟩).Emits
      (JohnsonState.of_report below report) (report.closed.map closing_event) := by
  induction fuel generalizing below v marks report with
  | zero => simp [Enumeration.circuit] at h
  | succ fuel ih =>
      obtain ⟨scanned, hscan, hl⟩ := Option.bind_eq_some_iff.mp h
      have hsimulates : Simulates (Enumeration.circuit (window_successors graph width root start) root cap
          (List.range graph.vertex_count) fuel (v :: below)) (v :: below)
          (circuit graph width cap root start fuel) := fun next marks report hr =>
        ih (v :: below) next marks report (by simp) hr
      obtain ⟨events, ho, he⟩ := edge_loop_emits hw h0 hs hlen hsimulates (fun _ he => he) hscan
      have hreg := Search.emits_ofExcept
        (add_to_blocked_lists_eq hw h0 hs root ⟨scanned.marks, v :: below⟩ v)
      obtain ⟨hclosed, hleave⟩ := leave_emits hl hreg
      rw [hclosed, ho]
      exact he.then hleave

end JohnsonTimeWindowSearch

theorem static_circuit_emits (hw : graph.WellFormed) {root : Nat} (hr : root < graph.vertex_count) :
    ∃ result, (JohnsonSearch.circuit graph none root graph.vertex_count root
      (JohnsonState.reset [])).Emits result
        ((static_closings graph none root).map closing_event) := by
  have hp := on_path_root hr
  obtain ⟨report, he, hx⟩ := circuit_spec
    (fun v next hn => (mem_static_successors hw hn).1) graph.vertex_count [] root Blocking.none
    (blocks_none [] (by simp)) rfl hp.nodup hp.mem (by simp) (uncut_none _ _ _ _)
  exact ⟨_, hx.closed ▸ JohnsonSearch.circuit_emits hw _ _ _ _ _ (by simp) he⟩

theorem count_simple_cycles_johnson_eq (hw : graph.WellFormed) (hcap : ∀ limit ∈ cap, 2 ≤ limit) :
    count_simple_cycles_johnson graph cap =
      (∅ : CycleHistogram).record (static_events graph cap) := by
  rw [count_simple_cycles_johnson, validate_max_cycle_length_ok hcap]
  refine Search.Emits.histogram (for_each_root_emits hw fun root hr => ?_)
  have hr := List.mem_range.mp hr
  cases cap with
  | none =>
      obtain ⟨result, he⟩ := static_circuit_emits hw hr
      exact he.then (Search.emits_pure ())
  | some limit =>
      have he := JohnsonSearch.circuit_bounded_emits (some limit) hw graph.vertex_count root []
        (on_path_root hr) (by simp)
      exact he.then (Search.emits_pure ())

-- Where the cap takes no effect on the search from one start event, that search
-- adds the closings of the plain one.
def StartUncut (graph : GraphView) (width : Int) (cap : Option Nat) (start : Start) : Prop :=
  Uncut (window_successors graph width start.root (start.time graph)) start.root cap
    (List.range graph.vertex_count) graph.vertex_count [start.root] start.edge.vertex Blocking.none

theorem window_circuit_emits (hw : graph.WellFormed) {width : Int} (h0 : 0 ≤ width)
    (hno : NoWindowOverflow graph width) {start : Start} (hs : start ∈ starts graph)
    (huncut : StartUncut graph width cap start) :
    ∃ result, (JohnsonTimeWindowSearch.circuit graph width cap start.root (start.time graph)
      graph.vertex_count start.edge.vertex (JohnsonState.reset [start.root])).Emits result
        ((window_closings graph width cap start).map closing_event) := by
  have hp := on_path_start hw hs
  obtain ⟨report, he, hx⟩ := circuit_spec
    (fun v next hn => (mem_window_successors hw hn).1) graph.vertex_count [start.root]
    start.edge.vertex Blocking.none (blocks_none _ (by simp)) rfl hp.nodup hp.mem (by simp) huncut
  exact ⟨_, hx.closed ▸ JohnsonTimeWindowSearch.circuit_emits hw h0 (hno _ hs)
    _ _ _ _ _ (by simp) he⟩

theorem count_time_window_cycles_johnson_eq (hw : graph.WellFormed) {width : Int} (h0 : 0 ≤ width)
    (hno : NoWindowOverflow graph width) (hcap : ∀ limit ∈ cap, 2 ≤ limit)
    (huncut : ∀ start ∈ starts graph, StartUncut graph width cap start) :
    count_time_window_cycles_johnson graph width cap =
      (∅ : CycleHistogram).record (window_events graph width cap) := by
  rw [count_time_window_cycles_johnson, validate_max_cycle_length_ok hcap]
  refine Search.Emits.histogram (for_each_start_emits hw fun start hs => ?_)
  obtain ⟨result, he⟩ := window_circuit_emits hw h0 hno hs (huncut start hs)
  exact he.then (Search.emits_pure ())

-- The search from one start event loses closings under a cap, or enters a vertex of
-- its own path.
def StartLoses (graph : GraphView) (width : Int) (cap : Option Nat) (start : Start) : Prop :=
  Loses (window_successors graph width start.root (start.time graph)) start.root cap
    (List.range graph.vertex_count) graph.vertex_count [start.root] start.edge.vertex Blocking.none

def StartRevisits (graph : GraphView) (width : Int) (cap : Option Nat) (start : Start) : Prop :=
  Revisits (window_successors graph width start.root (start.time graph)) start.root cap
    (List.range graph.vertex_count) graph.vertex_count [start.root] start.edge.vertex Blocking.none

instance (graph : GraphView) (width : Int) (cap : Option Nat) (start : Start) :
    Decidable (StartLoses graph width cap start) :=
  inferInstanceAs (Decidable (Loses _ _ _ _ _ _ _ _))

instance (graph : GraphView) (width : Int) (cap : Option Nat) (start : Start) :
    Decidable (StartRevisits graph width cap start) :=
  inferInstanceAs (Decidable (Revisits _ _ _ _ _ _ _ _))

theorem window_circuit_part (hw : graph.WellFormed) {width : Int} (h0 : 0 ≤ width)
    (hno : NoWindowOverflow graph width) {start : Start} (hs : start ∈ starts graph)
    (hrevisits : ¬StartRevisits graph width cap start) :
    ∃ out result, PartOf (StartLoses graph width cap start) out
        (window_closings graph width cap start) ∧
      (JohnsonTimeWindowSearch.circuit graph width cap start.root (start.time graph)
        graph.vertex_count start.edge.vertex (JohnsonState.reset [start.root])).Emits result
          (out.map closing_event) := by
  have hp := on_path_start hw hs
  obtain ⟨report, he, -, hpart⟩ := circuit_part (fun v next hn => (mem_window_successors hw hn).1)
    graph.vertex_count [start.root] start.edge.vertex Blocking.none (by simp) hp.nodup hp.mem
    (by simp) hrevisits
  exact ⟨_, _, hpart, JohnsonTimeWindowSearch.circuit_emits hw h0 (hno _ hs)
    _ _ _ _ _ (by simp) he⟩

theorem count_time_window_cycles_johnson_part (hw : graph.WellFormed) {width : Int} (h0 : 0 ≤ width)
    (hno : NoWindowOverflow graph width) (hcap : ∀ limit ∈ cap, 2 ≤ limit)
    (hrevisits : ∀ start ∈ starts graph, ¬StartRevisits graph width cap start) :
    ((∀ start ∈ starts graph, ¬StartLoses graph width cap start) →
      count_time_window_cycles_johnson graph width cap =
        (∅ : CycleHistogram).record (window_events graph width cap)) ∧
    ∀ histogram, (∅ : CycleHistogram).record (window_events graph width cap) = .ok histogram →
      count_time_window_cycles_johnson graph width cap = .ok histogram →
        ∀ start ∈ starts graph, ¬StartLoses graph width cap start := by
  have hall : ∀ start ∈ starts graph, ∃ out result, PartOf (StartLoses graph width cap start) out
        (window_closings graph width cap start) ∧
      (JohnsonTimeWindowSearch.circuit graph width cap start.root (start.time graph)
        graph.vertex_count start.edge.vertex (JohnsonState.reset [start.root])).Emits result
          (out.map closing_event) := fun start hs =>
    window_circuit_part hw h0 hno hs (hrevisits start hs)
  choose! out result hout using hall
  rw [count_time_window_cycles_johnson, validate_max_cycle_length_ok hcap]
  let visit : Nat → AdjacencyEntry → Int → Search Unit := fun root start_edge start_timestamp => do
    let _ ← JohnsonTimeWindowSearch.circuit graph width cap root start_timestamp graph.vertex_count
      start_edge.vertex (JohnsonState.reset [root])
  have hemits : ∀ start ∈ starts graph,
      (visit start.root start.edge (start.time graph)).Emits () ((out start).map closing_event) :=
    fun start hs => (hout start hs).2.then (Search.emits_pure ())
  have hpart : ∀ start ∈ starts graph, (out start).Sublist (window_closings graph width cap start) :=
    fun start hs => (hout start hs).1.sublist
  change (_ → (for_each_start graph visit).histogram = _) ∧ ∀ histogram, _ →
    (for_each_start graph visit).histogram = _ → _
  constructor
  · intro hlost
    rw [(for_each_start_emits hw hemits).histogram, window_events]
    congr 1
    exact List.flatMap_congr fun start hs => by
      rw [not_ne_iff.mp ((hout start hs).1.lost_iff.not.mp (hlost start hs))]
  · intro histogram hok heq start hs
    rw [(hout start hs).1.lost_iff, not_ne_iff]
    exact (for_each_start_part hw hpart hemits hok).mp heq start hs

end CycleEnum.Sequential
