import CycleEnum.Sequential.ReadTarjan

namespace CycleEnum.Sequential

open Enumeration

variable {graph : GraphView} {cap : Option Nat} {root : Nat} {tests : EdgeTests}

-- The tests leave exactly the edges that `admits` does. With `skip` the search
-- for an alternate never tries the root.
structure EdgeTests.Admit (graph : GraphView) (root : Nat) (tests : EdgeTests)
    (admits : Nat → AdjacencyEntry → Bool) (skip : Bool) : Prop where
  timed : ∀ v, ∀ edge ∈ graph.outgoing_row v, ∃ timed, tests.has_timestamp edge v = .ok timed ∧
    admits v edge = (timed && !tests.below_root edge.vertex)
  low : ∀ next, tests.at_or_below_root next = (tests.below_root next || (skip && decide (next = root)))
  root_above : tests.below_root root = false

def admitted_successors (graph : GraphView) (admits : Nat → AdjacencyEntry → Bool) (vertex : Nat) :
    List Nat :=
  ((graph.outgoing_row vertex).filter (admits vertex)).map (·.vertex)

theorem simple_tests_admits (root : Nat) :
    (simple_tests root).Admit graph root (fun _ edge => root ≤ edge.vertex) true where
  timed v edge _ := ⟨true, rfl, by rw [Bool.eq_iff_iff]; simp [simple_tests]⟩
  low next := by
    simp only [simple_tests, Bool.true_and]
    rw [Bool.eq_iff_iff]
    simp
    omega
  root_above := by simp [simple_tests]

theorem time_window_tests_admits (hw : graph.WellFormed) {width start : Int} (h0 : 0 ≤ width)
    (hs : start ≤ MAX_TIMESTAMP - width) (root : Nat) :
    (time_window_tests graph width root start).Admit graph root
      (admitted graph width root start) false where
  timed v edge he := ⟨_, edge_has_timestamp_eq hw h0 hs root v edge he, by simp [time_window_tests]⟩
  low next := by simp [time_window_tests]
  root_above := rfl

-- A loop over all entries that skips the others goes like one over those that
-- pass a filter.
theorem firstSuccess_filter {σ α : Type} {row : List AdjacencyEntry}
    {admits : AdjacencyEntry → Bool} {step : Nat → σ → Option (Option α × σ)}
    (visit : AdjacencyEntry → σ → Except Error (Option α × σ))
    (hskip : ∀ state, ∀ edge ∈ row, admits edge = false → visit edge state = .ok (none, state))
    (hstep : ∀ state result, ∀ edge ∈ row, admits edge = true →
      step edge.vertex state = some result → visit edge state = .ok result)
    {state : σ} {result : Option α × σ}
    (h : firstSuccess step ((row.filter admits).map (·.vertex)) state = some result) :
    firstSuccess visit row state = .ok result := by
  induction row generalizing state with
  | nil => exact congrArg Except.ok (Option.some.inj h)
  | cons edge row ih =>
      have ih := fun {s} => @ih (fun s e he => hskip s e (List.mem_cons_of_mem _ he))
        (fun s r e he => hstep s r e (List.mem_cons_of_mem _ he)) s
      rw [firstSuccess]
      cases ha : admits edge with
      | false =>
          rw [List.filter_cons_of_neg (by simp [ha])] at h
          rw [hskip state edge (by simp) ha]
          exact ih h
      | true =>
          rw [List.filter_cons_of_pos ha, List.map_cons, firstSuccess] at h
          obtain ⟨⟨found, middle⟩, hm, h⟩ := Option.bind_eq_some_iff.mp h
          rw [hstep state _ edge (by simp) ha hm]
          cases found with
          | some a => exact congrArg Except.ok (Option.some.inj h)
          | none => exact ih h

section Paths

variable {admits : Nat → AdjacencyEntry → Bool} {skip : Bool}
  (ht : tests.Admit graph root admits skip)

include ht

theorem find_path_dfs_eq (blocked : Flags) (fuel : Nat) (v : Nat) (visited : Flags)
    (result : Option (List Nat) × Flags)
    (h : findPathDfs (admitted_successors graph admits) root blocked fuel v visited = some result) :
    find_path_dfs graph root tests blocked fuel v visited = .ok result := by
  induction fuel generalizing v visited result with
  | zero => simp [findPathDfs] at h
  | succ fuel ih =>
      rw [find_path_dfs]
      refine firstSuccess_filter _ (fun state edge he ha => ?_) (fun state result edge he ha hstep => ?_) h
      · obtain ⟨timed, htime, hadm⟩ := ht.timed v edge he
        rw [htime]
        cases timed with
        | false => rfl
        | true =>
            have hlow : tests.below_root edge.vertex = true := by simpa [ha] using hadm
            have hr : edge.vertex ≠ root := by
              rintro hr
              simp [hr, ht.root_above] at hlow
            have hskip : tests.at_or_below_root edge.vertex = true := by simp [ht.low, hlow]
            simp [hr, hskip, bind, Except.bind, pure, Except.pure]
      · obtain ⟨timed, htime, hadm⟩ := ht.timed v edge he
        rw [ha] at hadm
        obtain ⟨rfl, hlow⟩ : timed = true ∧ tests.below_root edge.vertex = false := by
          simpa using hadm.symm
        rw [htime]
        change (if edge.vertex = root then _ else _) = _
        by_cases hr : edge.vertex = root
        · rw [if_pos hr] at hstep ⊢
          obtain rfl := Option.some.inj hstep
          rfl
        rw [if_neg hr] at hstep ⊢
        have hskip : tests.at_or_below_root edge.vertex = false := by simp [ht.low, hlow, hr]
        by_cases hseen : state edge.vertex = true ∨ blocked edge.vertex = true
        · rw [if_pos (by simpa using hseen)] at hstep
          obtain rfl := Option.some.inj hstep
          rw [if_pos (Or.inr hseen)]
          rfl
        · rw [if_neg (by simpa using hseen)] at hstep
          obtain ⟨⟨path, after⟩, hin, rfl⟩ := Option.map_eq_some_iff.mp hstep
          rw [if_neg (by simpa [hskip] using hseen), ih _ _ _ hin]
          rfl

theorem find_path_eq (start : Nat) (blocked : Flags) (result : Option (List Nat) × Flags)
    (h : findPath (admitted_successors graph admits) root graph.vertex_count start blocked =
      some result) :
    find_path graph root tests start blocked = .ok result := by
  obtain ⟨⟨path, visited⟩, hd, rfl⟩ := Option.map_eq_some_iff.mp h
  rw [find_path, find_path_dfs_eq ht blocked _ start Flags.none _ hd]
  rfl

theorem find_alternate_eq (previous : Nat) (ahead : Option Nat) (blocked : Flags)
    (result : Option (List Nat) × Flags)
    (h : findAlternate (admitted_successors graph admits) root skip graph.vertex_count previous ahead
      blocked = some result) :
    find_alternate graph root tests previous ahead blocked = .ok result := by
  refine firstSuccess_filter _ (fun state edge he ha => ?_) (fun state result edge he ha hstep => ?_) h
  · obtain ⟨timed, htime, hadm⟩ := ht.timed previous edge he
    by_cases hskip : ahead = some edge.vertex ∨ tests.at_or_below_root edge.vertex ∨
        state edge.vertex
    · rw [if_pos hskip]
      rfl
    · rw [if_neg hskip, htime]
      have hlow : tests.below_root edge.vertex = false := by
        simp only [ht.low, Bool.or_eq_true, not_or] at hskip
        exact Bool.eq_false_iff.mpr hskip.2.1.1
      obtain rfl : timed = false := by simpa [ha, hlow] using hadm
      rfl
  · obtain ⟨timed, htime, hadm⟩ := ht.timed previous edge he
    rw [ha] at hadm
    obtain ⟨rfl, hlow⟩ : timed = true ∧ tests.below_root edge.vertex = false := by
      simpa using hadm.symm
    by_cases ha : ahead = some edge.vertex
    · rw [if_pos ha] at hstep
      obtain rfl := Option.some.inj hstep
      rw [if_pos (Or.inl ha)]
      rfl
    rw [if_neg ha] at hstep
    by_cases hr : (skip && decide (edge.vertex = root)) = true
    · rw [if_pos hr] at hstep
      obtain rfl := Option.some.inj hstep
      rw [if_pos (Or.inr (Or.inl (by rw [ht.low, hr, Bool.or_true])))]
      rfl
    rw [if_neg hr] at hstep
    by_cases hb : state edge.vertex = true
    · rw [if_pos hb] at hstep
      obtain rfl := Option.some.inj hstep
      rw [if_pos (Or.inr (Or.inr hb))]
      rfl
    rw [if_neg hb] at hstep
    have hnot : ¬(ahead = some edge.vertex ∨ tests.at_or_below_root edge.vertex ∨
        state edge.vertex) := by
      simp only [ht.low, hlow, Bool.false_or, not_or]
      exact ⟨ha, hr, hb⟩
    rw [if_neg hnot, htime]
    exact find_path_eq ht _ _ _ hstep

theorem advance_eq (path : List Nat) (vertex : Nat) (stack : List Nat) (blocked : Flags)
    (fork : Fork Nat)
    (h : Enumeration.advance (admitted_successors graph admits) root skip graph.vertex_count path
      vertex stack blocked = some fork) :
    advance graph root tests path vertex stack blocked = .ok fork := by
  induction path generalizing vertex stack blocked with
  | nil => simp [Enumeration.advance] at h
  | cons v path ih =>
      rw [Enumeration.advance] at h
      rw [advance]
      by_cases hr : v = root
      · rw [if_pos hr] at h ⊢
        exact congrArg Except.ok (Option.some.inj h)
      · rw [if_neg hr] at h ⊢
        obtain ⟨⟨alternate, blocked'⟩, hf, h⟩ := Option.bind_eq_some_iff.mp h
        rw [Flags.set, find_alternate_eq ht _ _ _ _ hf]
        cases alternate with
        | some alternate => exact congrArg Except.ok (Option.some.inj h)
        | none => exact ih _ _ _ h

end Paths

-- The increments for the closings that the length test lets through.
def capped_events (cap : Option Nat) (closed : List (List Nat)) : List (Nat × Nat) :=
  (closed.filter fun stack => cap.all (stack.length ≤ ·)).map closing_event

theorem capped_events_append (closed more : List (List Nat)) :
    capped_events cap (closed ++ more) = capped_events cap closed ++ capped_events cap more := by
  simp [capped_events]

theorem capped_events_singleton (stack : List Nat) :
    capped_events cap [stack] =
      if cap.all (stack.length ≤ ·) then [closing_event stack] else [] := by
  simp only [capped_events, List.filter_cons, List.filter_nil]
  split_ifs <;> rfl

section Branches

variable {admits : Nat → AdjacencyEntry → Bool} {skip : Bool}
  (ht : tests.Admit graph root admits skip)

include ht

theorem follow_path_emits (fuel : Nat) (vertex : Nat) (path stack : List Nat) (blocked : Flags)
    (out : List (List Nat))
    (hcycles : ∀ more, fuel = more + 1 → ∀ v stack blocked main alternate out,
      cycles (admitted_successors graph admits) root skip graph.vertex_count more v stack blocked main
        alternate = some out →
      (cycles_read_tarjan graph cap root tests more v stack blocked main alternate).Emits ()
        (capped_events cap out))
    (h : follow (admitted_successors graph admits) root skip graph.vertex_count fuel vertex path stack
      blocked = some out) :
    (follow_path graph cap root tests fuel vertex path stack blocked).Emits ()
      (capped_events cap out) := by
  cases fuel with
  | zero => simp [follow] at h
  | succ fuel =>
      obtain ⟨fork, hf, h⟩ := Option.bind_eq_some_iff.mp (by simpa only [follow] using h)
      rw [follow_path]
      refine (Search.emits_ofExcept (advance_eq ht _ _ _ _ _ hf)).silent ?_
      cases hfa : fork.alternate with
      | some alternate =>
          rw [hfa] at h
          exact hcycles fuel rfl _ _ _ _ _ _ h
      | none =>
          rw [hfa] at h
          obtain rfl := Option.some.inj h
          rw [capped_events_singleton]
          dsimp only
          split_ifs with hc
          · exact Search.emits_increment _ 1
          · exact Search.emits_pure ()

-- The loop body of `cycles_read_tarjan`.
omit ht in
def branch_loop (graph : GraphView) (cap : Option Nat) (root : Nat) (tests : EdgeTests) (fuel : Nat)
    (edge_vertex : Nat) (current : List Nat) (blocked_state : Flags) :
    Option (List Nat) × Option (List Nat) → AdjacencyEntry →
      Search (Option (List Nat) × Option (List Nat)) :=
  fun (main_path, alternate_path) edge => do
    if tests.below_root edge.vertex ∨ blocked_state edge.vertex then
      return (main_path, alternate_path)
    else if !(← Search.ofExcept (tests.has_timestamp edge edge_vertex)) then
      return (main_path, alternate_path)
    else if main_path.bind List.head? = some edge.vertex then do
      follow_path graph cap root tests fuel edge_vertex (main_path.getD []) current blocked_state
      return (none, alternate_path)
    else if alternate_path.bind List.head? = some edge.vertex then do
      follow_path graph cap root tests fuel edge_vertex (alternate_path.getD []) current blocked_state
      return (main_path, none)
    else do
      let (path, _) ← Search.ofExcept (find_path graph root tests edge.vertex blocked_state)
      match path with
      | none => return (main_path, alternate_path)
      | some path =>
          follow_path graph cap root tests fuel edge_vertex path current blocked_state
          return (main_path, alternate_path)

theorem branch_loop_emits {fuel v : Nat} {stack : List Nat} {blocked : Flags}
    (hfollow : ∀ path out, follow (admitted_successors graph admits) root skip graph.vertex_count fuel
      v path stack blocked = some out →
      (follow_path graph cap root tests fuel v path stack blocked).Emits () (capped_events cap out))
    {edge : AdjacencyEntry} (he : edge ∈ graph.outgoing_row v) (ha : admits v edge = true)
    {t t' : Turn Nat}
    (h : turn (admitted_successors graph admits) root graph.vertex_count blocked (fun path =>
      follow (admitted_successors graph admits) root skip graph.vertex_count fuel v path stack blocked)
      t edge.vertex = some t') :
    ∃ events, capped_events cap t'.closed = capped_events cap t.closed ++ events ∧
      (branch_loop graph cap root tests fuel v stack blocked (t.main, t.alternate) edge).Emits
        (t'.main, t'.alternate) events := by
  obtain ⟨timed, htime, hadm⟩ := ht.timed v edge he
  rw [ha] at hadm
  obtain ⟨rfl, hlow⟩ : timed = true ∧ tests.below_root edge.vertex = false := by
    simpa using hadm.symm
  unfold turn at h
  unfold branch_loop
  dsimp only
  by_cases hb : blocked edge.vertex = true
  · rw [if_pos hb] at h
    obtain rfl := Option.some.inj h
    rw [if_pos (Or.inr hb)]
    exact ⟨[], by simp, Search.emits_pure _⟩
  rw [if_neg hb] at h
  rw [if_neg (by simpa [hlow] using hb)]
  have htimed := Search.emits_ofExcept htime
  by_cases hm : t.main.bind List.head? = some edge.vertex
  · rw [if_pos hm] at h
    obtain ⟨out, ho, rfl⟩ := Option.map_eq_some_iff.mp h
    refine ⟨_, capped_events_append t.closed out, htimed.silent ?_⟩
    rw [if_neg (by simp), if_pos hm]
    exact (hfollow _ _ ho).then (Search.emits_pure _)
  rw [if_neg hm] at h
  by_cases hal : t.alternate.bind List.head? = some edge.vertex
  · rw [if_pos hal] at h
    obtain ⟨out, ho, rfl⟩ := Option.map_eq_some_iff.mp h
    refine ⟨_, capped_events_append t.closed out, htimed.silent ?_⟩
    rw [if_neg (by simp), if_neg hm, if_pos hal]
    exact (hfollow _ _ ho).then (Search.emits_pure _)
  rw [if_neg hal] at h
  obtain ⟨⟨path, blocked'⟩, hp, h⟩ := Option.bind_eq_some_iff.mp h
  have hfind := Search.emits_ofExcept (find_path_eq ht _ _ _ hp)
  cases path with
  | none =>
      obtain rfl := Option.some.inj h
      refine ⟨[], by simp, htimed.silent ?_⟩
      rw [if_neg (by simp), if_neg hm, if_neg hal]
      exact hfind.silent (Search.emits_pure _)
  | some path =>
      obtain ⟨out, ho, rfl⟩ := Option.map_eq_some_iff.mp h
      refine ⟨_, capped_events_append t.closed out, htimed.silent ?_⟩
      rw [if_neg (by simp), if_neg hm, if_neg hal]
      exact hfind.silent ((hfollow _ _ ho).then (Search.emits_pure _))

theorem branch_loop_skip {fuel v : Nat} {stack : List Nat} {blocked : Flags}
    {edge : AdjacencyEntry} (he : edge ∈ graph.outgoing_row v) (ha : admits v edge = false)
    (paths : Option (List Nat) × Option (List Nat)) :
    (branch_loop graph cap root tests fuel v stack blocked paths edge).Emits paths [] := by
  obtain ⟨timed, htime, hadm⟩ := ht.timed v edge he
  unfold branch_loop
  dsimp only
  by_cases hb : tests.below_root edge.vertex = true ∨ blocked edge.vertex = true
  · rw [if_pos hb]
    exact Search.emits_pure _
  · obtain ⟨hlow, -⟩ := not_or.mp hb
    obtain rfl : timed = false := by simpa [ha, hlow] using hadm
    rw [if_neg hb]
    exact (Search.emits_ofExcept htime).silent (Search.emits_pure _)

theorem cycles_read_tarjan_emits (fuel : Nat) (v : Nat) (stack : List Nat) (blocked : Flags)
    (main alternate : Option (List Nat)) (out : List (List Nat))
    (h : cycles (admitted_successors graph admits) root skip graph.vertex_count fuel v stack blocked
      main alternate = some out) :
    (cycles_read_tarjan graph cap root tests fuel v stack blocked main alternate).Emits ()
      (capped_events cap out) := by
  induction fuel using Nat.strongRecOn generalizing v stack blocked main alternate out with
  | _ fuel ih =>
      cases fuel with
      | zero => simp [cycles] at h
      | succ fuel =>
          obtain ⟨t, hloop, rfl⟩ := Option.map_eq_some_iff.mp (by simpa only [cycles] using h)
          have hfollow : ∀ path out, follow (admitted_successors graph admits) root skip
              graph.vertex_count fuel v path stack blocked = some out →
              (follow_path graph cap root tests fuel v path stack blocked).Emits ()
                (capped_events cap out) := fun path out ho =>
            follow_path_emits ht fuel v path stack blocked out
              (fun more he v stack blocked main alternate out hc =>
                ih more (by omega) v stack blocked main alternate out hc) ho
          obtain ⟨events, ho, he⟩ := Search.emits_foldlM
            (branch_loop graph cap root tests fuel v stack blocked)
            (fun t : Turn Nat => capped_events cap t.closed) (fun t => (t.main, t.alternate))
            (fun t edge he ha => branch_loop_skip ht he ha _)
            (fun t t' edge he ha hstep => branch_loop_emits ht hfollow he ha hstep) hloop
          rw [cycles_read_tarjan, ho]
          exact he.then (Search.emits_pure ())

end Branches

-- Filtering all closings by their length lists the capped ones.
theorem closings_filter_cap (succ : Nat → List Nat) (root : Nat) (cap : Option Nat) (fuel : Nat)
    (stack : List Nat) (hle : ∀ limit ∈ cap, stack.length ≤ limit) :
    (closings succ root none fuel stack).filter (fun closed => cap.all (closed.length ≤ ·)) =
      closings succ root cap fuel stack := by
  cases cap with
  | none => simp
  | some limit => rw [closings_some_eq_filter limit fuel stack (hle limit rfl)]; rfl

theorem static_search_emits (hw : graph.WellFormed) {root : Nat} (hr : root < graph.vertex_count)
    (hcap : ∀ limit ∈ cap, 2 ≤ limit) :
    (cycles_read_tarjan graph cap root (simple_tests root) (2 * graph.vertex_count) root [root]
      Flags.none none none).Emits () ((static_closings graph cap root).map closing_event) := by
  have hrow := static_successors_nodup hw root
  have hhead := fun v => static_successors_head hw root v
  have hloop : root ∉ static_successors graph root root := fun hm =>
    (mem_static_successors hw hm).2 rfl
  obtain ⟨out, he, hout⟩ := cycles_spec _ root true (List.range graph.vertex_count)
    (fun v next hn => (mem_static_successors hw hn).1) hrow (fun _ => hhead)
    (List.mem_range.mpr hr) hloop
  have hall : out = closings (static_successors graph root) root none graph.vertex_count [root] := by
    rw [hout.eq fun stack _ part _ => not_missed_of_head hrow fun v _ => hhead v, every, List.length_range]
  rw [List.length_range] at he
  have hcapped := closings_filter_cap (static_successors graph root) root cap graph.vertex_count
    [root] fun limit hl => Nat.le_of_succ_le (hcap limit hl)
  rw [static_closings, ← hcapped, ← hall]
  exact cycles_read_tarjan_emits (simple_tests_admits root) _ _ _ _ _ _ out he

theorem count_simple_cycles_read_tarjan_eq (hw : graph.WellFormed)
    (hcap : ∀ limit ∈ cap, 2 ≤ limit) :
    count_simple_cycles_read_tarjan graph cap =
      (∅ : CycleHistogram).record (static_events graph cap) := by
  rw [count_simple_cycles_read_tarjan, validate_max_cycle_length_ok hcap]
  refine Search.Emits.histogram (for_each_root_emits hw fun root hr => ?_)
  exact static_search_emits hw (List.mem_range.mp hr) hcap

-- The search from one start event lists every closing but some that have a missed
-- part.
theorem search_start_emits (cap : Option Nat) (hw : graph.WellFormed) {width : Int} (h0 : 0 ≤ width)
    (hno : NoWindowOverflow graph width) {start : Start} (hs : start ∈ starts graph) :
    ∃ out, Between (window_successors graph width start.root (start.time graph)) start.root
        (window_closings graph width none start) out ∧
      (ReadTarjanTimeWindowSearch.search_start graph width cap start.root start.edge
        (start.time graph)).Emits () (capped_events cap out) := by
  obtain ⟨hr, he, -, -⟩ := mem_starts.mp hs
  have hadmits := time_window_tests_admits hw h0 (hno _ hs) start.root
  obtain ⟨result, blocked, hfind, hnone, hsome⟩ := follow_start_spec
    (window_successors graph width start.root (start.time graph)) start.root false
    (List.range graph.vertex_count) (fun v next hn => (mem_window_successors hw hn).1)
    (window_successors_nodup hw width _ _)
    (fun h => absurd h Bool.false_ne_true) (List.mem_range.mpr hr)
    (List.mem_range.mpr (hw.bounded _ _ he).2) (hw.no_loop _ _ he)
  rw [List.length_range] at hfind
  have hpath := Search.emits_ofExcept (find_path_eq hadmits _ _ _ hfind)
  have hclosings : window_closings graph width none start =
      every (window_successors graph width start.root (start.time graph)) start.root
        (List.range graph.vertex_count) [start.edge.vertex, start.root] := by
    rw [every, List.length_range]
    rfl
  rw [hclosings]
  cases result with
  | none =>
      rw [hnone rfl]
      exact ⟨[], between_nil, hpath.silent (Search.emits_pure ())⟩
  | some path =>
      obtain ⟨out, hf, hout⟩ := hsome path rfl
      rw [List.length_range] at hf
      exact ⟨out, hout, hpath.silent (follow_path_emits hadmits _ _ _ _ _ _
        (fun more _ v stack blocked main alternate out hc =>
          cycles_read_tarjan_emits hadmits more v stack blocked main alternate out hc) hf)⟩

-- A start event loses a closing when its last vertex has an earlier way back and
-- the root cannot be left and reached again off the path.
def Misses (graph : GraphView) (width : Int) (cap : Option Nat) (start : Start) : Prop :=
  ∃ closed, Closes (window_successors graph width start.root (start.time graph)) start.root cap
      [start.edge.vertex, start.root] closed ∧
    Missed (window_successors graph width start.root (start.time graph)) start.root closed

theorem not_misses_of_head (hw : graph.WellFormed) {width : Int} {start : Start}
    (hs : start ∈ starts graph)
    (h : ∀ closed ∈ window_closings graph width cap start, ∀ v ∈ closed.head?,
      (window_successors graph width start.root (start.time graph) v).head? = some start.root) :
    ¬Misses graph width cap start := by
  rintro ⟨closed, hclosed, hm⟩
  exact not_missed_of_head (window_successors_nodup hw width start.root (start.time graph))
    (fun v hv _ => h closed (mem_window_closings hw hs hclosed) v hv) hm

theorem window_closings_filter {width : Int} (hcap : ∀ limit ∈ cap, 2 ≤ limit) (start : Start) :
    (window_closings graph width none start).filter (fun closed => cap.all (closed.length ≤ ·)) =
      window_closings graph width cap start :=
  closings_filter_cap _ _ _ _ _ (by simpa using hcap)

theorem search_start_emits_all (hw : graph.WellFormed) {width : Int} (h0 : 0 ≤ width)
    (hno : NoWindowOverflow graph width) (hcap : ∀ limit ∈ cap, 2 ≤ limit) {start : Start}
    (hs : start ∈ starts graph) (hmiss : ¬Misses graph width cap start) :
    (ReadTarjanTimeWindowSearch.search_start graph width cap start.root start.edge
      (start.time graph)).Emits () ((window_closings graph width cap start).map closing_event) := by
  obtain ⟨out, hout, he⟩ := search_start_emits cap hw h0 hno hs
  have hfiltered := hout.filter fun closed => cap.all (closed.length ≤ ·)
  rw [window_closings_filter hcap] at hfiltered
  rw [capped_events, hfiltered.eq] at he
  · exact he
  · intro closed hclosed
    have hloop : start.root ∉ window_successors graph width start.root (start.time graph) start.root :=
      fun hm => (mem_window_successors hw hm).2 rfl
    refine (window_closes hw hs hclosed).clean hloop hcap fun part hpart hm => ?_
    exact hmiss ⟨part, hpart, hm⟩

-- Without losses the counts are those of the oracle.
theorem count_time_window_cycles_read_tarjan_eq (hw : graph.WellFormed) {width : Int}
    (h0 : 0 ≤ width) (hno : NoWindowOverflow graph width) (hcap : ∀ limit ∈ cap, 2 ≤ limit)
    (hmiss : ∀ start ∈ starts graph, ¬Misses graph width cap start) :
    count_time_window_cycles_read_tarjan graph width cap =
      (∅ : CycleHistogram).record (window_events graph width cap) := by
  rw [count_time_window_cycles_read_tarjan, validate_max_cycle_length_ok hcap]
  exact Search.Emits.histogram (for_each_start_emits hw fun start hs =>
    search_start_emits_all hw h0 hno hcap hs (hmiss start hs))

-- A run that loses a closing counts too little at its length.
theorem count_time_window_cycles_read_tarjan_ok_iff (hw : graph.WellFormed) {width : Int}
    (h0 : 0 ≤ width) (hno : NoWindowOverflow graph width) (hcap : ∀ limit ∈ cap, 2 ≤ limit)
    {histogram : CycleHistogram}
    (hok : (∅ : CycleHistogram).record (window_events graph width cap) = .ok histogram) :
    count_time_window_cycles_read_tarjan graph width cap = .ok histogram ↔
      ∀ start ∈ starts graph, ¬Misses graph width cap start := by
  constructor
  · have hall : ∀ start ∈ starts graph, ∃ out,
        Between (window_successors graph width start.root (start.time graph)) start.root
          (window_closings graph width cap start) out ∧
        (ReadTarjanTimeWindowSearch.search_start graph width cap start.root start.edge
          (start.time graph)).Emits () (out.map closing_event) := by
      intro start hs
      obtain ⟨out, hout, he⟩ := search_start_emits cap hw h0 hno hs
      have hfiltered := hout.filter fun closed => cap.all (closed.length ≤ ·)
      rw [window_closings_filter hcap] at hfiltered
      exact ⟨_, hfiltered, he⟩
    choose! out hout using hall
    have hrun := for_each_start_part hw (fun start hs => (hout start hs).1.sublist)
      (fun start hs => (hout start hs).2) hok
    rw [count_time_window_cycles_read_tarjan, validate_max_cycle_length_ok hcap]
    rintro heq start hs ⟨closed, hclosed, hm⟩
    refine (hout start hs).1.not_mem hm ?_
    rw [hrun.mp heq start hs]
    exact mem_window_closings hw hs hclosed
  · intro hmiss
    rw [count_time_window_cycles_read_tarjan_eq hw h0 hno hcap hmiss, hok]

end CycleEnum.Sequential
