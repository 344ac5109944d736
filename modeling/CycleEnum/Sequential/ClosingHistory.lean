import CycleEnum.Sequential.LateStarts

namespace CycleEnum.Sequential

open Enumeration

-- The cache, and the caches that were there after each write, in order.
structure ClosingLog where
  closing_after : ClosingTimes
  log : List ClosingTimes

def ClosingLog.write (memo : ClosingLog) (vertex : Nat) (time : Int) : ClosingLog :=
  let closing_after := Function.update memo.closing_after vertex (some time)
  ⟨closing_after, memo.log ++ [closing_after]⟩

-- `can_reach_root` with its writes.
def logged_can_reach_root (graph : GraphView) (root : Nat) (window_end : Int) :
    Nat → Nat → Int → ClosingLog → Except Error (Bool × ClosingLog)
  | 0, _, _, _ => throw .unfinished
  | fuel + 1, current, previous_timestamp, memo => do
      let closed_after := memo.closing_after current
      if closed_after.any (· ≤ previous_timestamp) then return (false, memo)
      else do
        let (reached, memo) ← firstSuccess (fun edge memo => do
          let range ← timestamps_after graph.timestamps edge.timestamp_begin edge.timestamp_end
            previous_timestamp window_end
          if range.empty then return (none, memo)
          else if edge.vertex = root then return (some (), memo)
          else
            firstSuccess (fun timestamp_offset memo => do
              let (reached, memo) ← logged_can_reach_root graph root window_end fuel edge.vertex
                (timestamp_at graph.timestamps timestamp_offset) memo
              return (if reached then some () else none, memo)) range.offsets memo)
          (graph.outgoing_row current) memo
        if reached.isSome then return (true, memo)
        else if closed_after.all (previous_timestamp < ·) then
          return (false, memo.write current previous_timestamp)
        else return (false, memo)

-- Calls one after the other.
def call_all {σ : Type} (call : Nat → Int → σ → Except Error (Bool × σ)) :
    List (Nat × Int) → σ → Except Error (List Bool × σ)
  | [], state => return ([], state)
  | (vertex, time) :: calls, state => do
      let (reached, state) ← call vertex time state
      let (more, state) ← call_all call calls state
      return (reached :: more, state)

-- A walk along edges with later and later timestamps in the window.
def TimedWalk (graph : GraphView) (window_end : Int) :
    Nat → Int → List (AdjacencyEntry × Nat) → Nat → Prop
  | v, _, [], last => v = last
  | v, previous, (edge, offset) :: walk, last =>
      edge ∈ graph.outgoing_entries v ∧
      edge.timestamp_begin ≤ offset ∧ offset < edge.timestamp_end ∧
      previous < timestamp_at graph.timestamps offset ∧
      timestamp_at graph.timestamps offset ≤ window_end ∧
      TimedWalk graph window_end edge.vertex (timestamp_at graph.timestamps offset) walk last

def WalksBack (graph : GraphView) (root : Nat) (window_end : Int) (v : Nat) (time : Int) : Prop :=
  ∃ walk, walk ≠ [] ∧ TimedWalk graph window_end v time walk root

-- The vertices that a walk leaves.
def sources : Nat → List (AdjacencyEntry × Nat) → List Nat
  | _, [] => []
  | v, (edge, _) :: walk => v :: sources edge.vertex walk

-- Where a walk leads back to the root, one does that leaves no vertex of the last id.
def WaysBackSeen (graph : GraphView) (root : Nat) (window_end : Int) : Prop :=
  ∀ v time, WalksBack graph root window_end v time →
    ∃ walk, walk ≠ [] ∧ TimedWalk graph window_end v time walk root ∧ 2 ^ 32 - 1 ∉ sources v walk

-- Entries are set, and lowered.
def Descends (earlier later : ClosingTimes) : Prop :=
  ∀ v, ∀ old ∈ earlier v, ∃ new ∈ later v, new ≤ old

variable {graph : GraphView} {root : Nat} {window_end : Int}

section Walks

theorem mem_later_iff {previous : Int} {edge : AdjacencyEntry} {offset : Nat} :
    offset ∈ (event_graph graph).later window_end previous (edge_events edge) ↔
      edge.timestamp_begin ≤ offset ∧ offset < edge.timestamp_end ∧
        previous < timestamp_at graph.timestamps offset ∧
        timestamp_at graph.timestamps offset ≤ window_end := by
  rw [EventGraph.mem_later, event_graph_time, edge_events, List.mem_range'_1]
  omega

-- The searches see the walks that leave no vertex of the last id.
theorem leads_back_iff_walk (hstart : graph.outgoing_offsets.getD 0 0 = 0) {v : Nat} {previous : Int} :
    LeadsBack (event_graph graph) window_end root v previous ↔ ∃ walk, walk ≠ [] ∧
      TimedWalk graph window_end v previous walk root ∧ 2 ^ 32 - 1 ∉ sources v walk := by
  have hrow : ∀ v edge, edge ∈ graph.outgoing_row v ↔
      2 ^ 32 - 1 ≠ v ∧ edge ∈ graph.outgoing_entries v := by
    intro v edge
    rw [show 2 ^ 32 - 1 ≠ v ↔ v + 1 ≠ 2 ^ 32 by omega]
    exact mem_narrow_row_iff hstart
  constructor
  · intro h
    induction h with
    | close arc later =>
        obtain ⟨edge, hedge, heq⟩ := List.mem_map.mp arc
        obtain ⟨hvertex, rfl⟩ := Prod.mk.inj heq
        obtain ⟨h₁, h₂, h₃, h₄⟩ := mem_later_iff.mp later
        obtain ⟨hid, hedge⟩ := (hrow _ _).mp hedge
        refine ⟨[(edge, _)], by simp, ⟨hedge, h₁, h₂, h₃, h₄, hvertex⟩, fun hlast => ?_⟩
        exact hid (List.mem_singleton.mp hlast)
    | step arc later _ ih =>
        obtain ⟨edge, hedge, heq⟩ := List.mem_map.mp arc
        obtain ⟨rfl, rfl⟩ := Prod.mk.inj heq
        obtain ⟨h₁, h₂, h₃, h₄⟩ := mem_later_iff.mp later
        obtain ⟨hid, hedge⟩ := (hrow _ _).mp hedge
        obtain ⟨walk, -, hwalk, hsources⟩ := ih
        refine ⟨(edge, _) :: walk, by simp, ⟨hedge, h₁, h₂, h₃, h₄, hwalk⟩, fun hlast => ?_⟩
        rcases List.mem_cons.mp hlast with heq | hlast
        · exact hid heq
        · exact hsources hlast
  · intro h
    obtain ⟨walk, hne, hwalk, hsources⟩ := h
    induction walk generalizing v previous with
    | nil => exact absurd rfl hne
    | cons first walk ih =>
        obtain ⟨edge, offset⟩ := first
        obtain ⟨hedge, h₁, h₂, h₃, h₄, hrest⟩ := hwalk
        rw [sources, List.mem_cons, not_or] at hsources
        refine leads_back_iff_edge.mpr ⟨edge, (hrow _ _).mpr ⟨hsources.1, hedge⟩, offset,
          mem_later_iff.mpr ⟨h₁, h₂, h₃, h₄⟩, ?_⟩
        cases walk with
        | nil => exact Or.inl hrest
        | cons second walk => exact Or.inr (ih (by simp) hrest hsources.2)

theorem TimedWalk.sources_lt (hw : graph.WellFormed) {v last : Nat} {previous : Int}
    {walk : List (AdjacencyEntry × Nat)} (h : TimedWalk graph window_end v previous walk last) :
    ∀ u ∈ sources v walk, u < graph.vertex_count := by
  induction walk generalizing v previous with
  | nil => simp [sources]
  | cons first walk ih =>
      obtain ⟨edge, offset⟩ := first
      obtain ⟨hedge, -, -, -, -, hrest⟩ := h
      intro u hu
      rcases List.mem_cons.mp hu with rfl | hu
      · exact (hw.bounded _ edge (hw.whole _ ▸ hedge)).1
      · exact ih hrest u hu

-- Below 2^32 vertices no vertex has the last id.
theorem ways_back_seen (hw : graph.WellFormed) : WaysBackSeen graph root window_end := by
  intro v time h
  obtain ⟨walk, hne, hwalk⟩ := h
  refine ⟨walk, hne, hwalk, fun hlast => ?_⟩
  have := hwalk.sources_lt hw _ hlast
  have := hw.counted
  omega

theorem walks_back_iff (hstart : graph.outgoing_offsets.getD 0 0 = 0)
    (hseen : WaysBackSeen graph root window_end) {v : Nat} {previous : Int} :
    WalksBack graph root window_end v previous ↔
      LeadsBack (event_graph graph) window_end root v previous := by
  rw [leads_back_iff_walk hstart]
  constructor
  · exact hseen v previous
  · rintro ⟨walk, hne, hwalk, -⟩
    exact ⟨walk, hne, hwalk⟩

end Walks

section Moments

-- The caches between two moments. Every write lowers one entry, rightly, to a time
-- with the property.
inductive Moments (graph : GraphView) (root : Nat) (window_end : Int) (written : Int → Prop)
    (start : ClosingTimes) : List ClosingTimes → ClosingTimes → Prop
  | start : Moments graph root window_end written start [] start
  | write {log : List ClosingTimes} {closing_after : ClosingTimes} {v : Nat} {time : Int}
      (before : Moments graph root window_end written start log closing_after)
      (hwritten : written time) (hlower : ∀ old ∈ closing_after v, time < old)
      (hno : ¬LeadsBack (event_graph graph) window_end root v time) :
      Moments graph root window_end written start
        (log ++ [Function.update closing_after v (some time)])
        (Function.update closing_after v (some time))

variable {written : Int → Prop} {start middle finish : ClosingTimes} {log log' : List ClosingTimes}

theorem Moments.trans (h : Moments graph root window_end written start log middle)
    (h' : Moments graph root window_end written middle log' finish) :
    Moments graph root window_end written start (log ++ log') finish := by
  induction h' with
  | start => rwa [List.append_nil]
  | write _ hwritten hlower hno ih =>
      rw [← List.append_assoc]
      exact .write ih hwritten hlower hno

theorem Moments.mono {written' : Int → Prop} (hmono : ∀ time, written time → written' time)
    (h : Moments graph root window_end written start log finish) :
    Moments graph root window_end written' start log finish := by
  induction h with
  | start => exact .start
  | write _ hwritten hlower hno ih => exact .write ih (hmono _ hwritten) hlower hno

-- An entry is what it was, or was written.
theorem Moments.entry (h : Moments graph root window_end written start log finish) (v : Nat) :
    finish v = start v ∨ ∃ time, finish v = some time ∧ written time := by
  induction h with
  | start => exact Or.inl rfl
  | @write log closing_after x time _ hwritten _ _ ih =>
      by_cases hv : v = x
      · subst hv
        exact Or.inr ⟨time, Function.update_self .., hwritten⟩
      · rw [Function.update_of_ne hv]
        exact ih

theorem Moments.last (h : Moments graph root window_end written start log finish) :
    (start :: log).getLast? = some finish := by
  cases h with
  | start => rfl
  | write => rw [← List.cons_append, List.getLast?_append, List.getLast?_singleton, Option.some_or]

theorem Moments.sound (hstart : start.Sound graph root window_end)
    (h : Moments graph root window_end written start log finish) :
    finish.Sound graph root window_end ∧
      ∀ closing_after ∈ log, closing_after.Sound graph root window_end := by
  induction h with
  | start => exact ⟨hstart, by simp⟩
  | write _ _ _ hno ih =>
      have hsound := ih.1.update hno
      refine ⟨hsound, fun closing_after hmem => ?_⟩
      rcases List.mem_append.mp hmem with hmem | hmem
      · exact ih.2 closing_after hmem
      · rwa [List.mem_singleton.mp hmem]

theorem Descends.trans {a b c : ClosingTimes} (h : Descends a b) (h' : Descends b c) :
    Descends a c := by
  intro v old hold
  obtain ⟨middle, hmiddle, hle⟩ := h v old hold
  obtain ⟨new, hnew, hle'⟩ := h' v middle hmiddle
  exact ⟨new, hnew, Int.le_trans hle' hle⟩

theorem descends_update {closing_after : ClosingTimes} {v : Nat} {time : Int}
    (hlower : ∀ old ∈ closing_after v, time < old) :
    Descends closing_after (Function.update closing_after v (some time)) := by
  intro x old hold
  by_cases hx : x = v
  · subst hx
    exact ⟨time, Function.update_self .., Int.le_of_lt (hlower old hold)⟩
  · exact ⟨old, by rwa [Function.update_of_ne hx], Int.le_refl old⟩

theorem Moments.descends (h : Moments graph root window_end written start log finish) :
    (∀ closing_after ∈ start :: log, Descends closing_after finish) ∧
      (start :: log).Pairwise Descends := by
  induction h with
  | start =>
      refine ⟨fun closing_after hmem => ?_, List.pairwise_singleton _ _⟩
      rw [List.mem_singleton.mp hmem]
      exact fun v old hold => ⟨old, hold, Int.le_refl old⟩
  | @write log closing_after v time _ _ hlower _ ih =>
      have hlast : ∀ earlier ∈ start :: log,
          Descends earlier (Function.update closing_after v (some time)) := fun earlier hmem =>
        (ih.1 earlier hmem).trans (descends_update hlower)
      rw [← List.cons_append]
      refine ⟨fun earlier hmem => ?_, List.pairwise_append.mpr ⟨ih.2, List.pairwise_singleton _ _, ?_⟩⟩
      · rcases List.mem_append.mp hmem with hmem | hmem
        · exact hlast earlier hmem
        · rw [List.mem_singleton.mp hmem]
          exact fun v old hold => ⟨old, hold, Int.le_refl old⟩
      · intro earlier hmem later hlater
        rw [List.mem_singleton.mp hlater]
        exact hlast earlier hmem

end Moments

section Logged

-- Two runs of which one logs the writes of the other.
def Logged {ρ : Type} (graph : GraphView) (root : Nat) (window_end : Int) (written : Int → Prop)
    (run : ClosingTimes → Except Error (ρ × ClosingTimes))
    (logged : ClosingLog → Except Error (ρ × ClosingLog)) : Prop :=
  ∀ closing_after log, ClosingTimes.Sound graph root window_end closing_after →
    ∃ result closing_after' added, run closing_after = .ok (result, closing_after') ∧
      logged ⟨closing_after, log⟩ = .ok (result, ⟨closing_after', log ++ added⟩) ∧
      Moments graph root window_end written closing_after added closing_after'

variable {ρ : Type} {written : Int → Prop}

theorem logged_return (result : ρ) : Logged graph root window_end written
    (fun closing_after => .ok (result, closing_after)) (fun memo => .ok (result, memo)) := by
  intro closing_after log _
  exact ⟨result, closing_after, [], rfl, by rw [List.append_nil], .start⟩

theorem Logged.mono {written' : Int → Prop} (hmono : ∀ time, written time → written' time)
    {run : ClosingTimes → Except Error (ρ × ClosingTimes)}
    {logged : ClosingLog → Except Error (ρ × ClosingLog)}
    (h : Logged graph root window_end written run logged) :
    Logged graph root window_end written' run logged := by
  intro closing_after log hs
  obtain ⟨result, closing_after', added, hrun, hlogged, hmoments⟩ := h closing_after log hs
  exact ⟨result, closing_after', added, hrun, hlogged, hmoments.mono hmono⟩

theorem Logged.bind {ρ' : Type} {run : ClosingTimes → Except Error (ρ × ClosingTimes)}
    {logged : ClosingLog → Except Error (ρ × ClosingLog)}
    {next : ρ → ClosingTimes → Except Error (ρ' × ClosingTimes)}
    {logged_next : ρ → ClosingLog → Except Error (ρ' × ClosingLog)}
    (h : Logged graph root window_end written run logged)
    (hnext : ∀ result, Logged graph root window_end written (next result) (logged_next result)) :
    Logged graph root window_end written
      (fun closing_after => run closing_after >>= fun pair => next pair.1 pair.2)
      (fun memo => logged memo >>= fun pair => logged_next pair.1 pair.2) := by
  intro closing_after log hs
  obtain ⟨result, middle, added, hrun, hlogged, hmoments⟩ := h closing_after log hs
  obtain ⟨result', finish, added', hrun', hlogged', hmoments'⟩ :=
    hnext result middle (log ++ added) (hmoments.sound hs).1
  refine ⟨result', finish, added ++ added', ?_, ?_, hmoments.trans hmoments'⟩
  · dsimp only
    rw [hrun]
    exact hrun'
  · dsimp only
    rw [hlogged, ← List.append_assoc]
    exact hlogged'

theorem Logged.firstSuccess {β : Type} {row : List β}
    {visit : β → ClosingTimes → Except Error (Option Unit × ClosingTimes)}
    {logged_visit : β → ClosingLog → Except Error (Option Unit × ClosingLog)}
    (h : ∀ x ∈ row, Logged graph root window_end written (visit x) (logged_visit x)) :
    Logged graph root window_end written (Enumeration.firstSuccess visit row)
      (Enumeration.firstSuccess logged_visit row) := by
  induction row with
  | nil => exact logged_return none
  | cons x row ih =>
      intro closing_after log hs
      obtain ⟨result, middle, added, hrun, hlogged, hmoments⟩ :=
        h x List.mem_cons_self closing_after log hs
      rw [Enumeration.firstSuccess, Enumeration.firstSuccess, hrun, hlogged]
      cases result with
      | some found => exact ⟨some found, middle, added, rfl, rfl, hmoments⟩
      | none =>
          obtain ⟨result, finish, added', hrun', hlogged', hmoments'⟩ :=
            ih (fun y hy => h y (List.mem_cons_of_mem x hy)) middle (log ++ added)
              (hmoments.sound hs).1
          refine ⟨result, finish, added ++ added', hrun', ?_, hmoments.trans hmoments'⟩
          rw [← List.append_assoc]
          exact hlogged'

-- The bodies of the loops of `logged_can_reach_root`.
def logged_reach_loop_inner (graph : GraphView) (root : Nat) (window_end : Int) (fuel vertex : Nat) :
    Nat → ClosingLog → Except Error (Option Unit × ClosingLog) :=
  fun timestamp_offset memo => do
    let (reached, memo) ← logged_can_reach_root graph root window_end fuel vertex
      (timestamp_at graph.timestamps timestamp_offset) memo
    return (if reached then some () else none, memo)

def logged_reach_loop (graph : GraphView) (root : Nat) (window_end : Int) (fuel : Nat)
    (previous_timestamp : Int) :
    AdjacencyEntry → ClosingLog → Except Error (Option Unit × ClosingLog) :=
  fun edge memo => do
    let range ← timestamps_after graph.timestamps edge.timestamp_begin edge.timestamp_end
      previous_timestamp window_end
    if range.empty then return (none, memo)
    else if edge.vertex = root then return (some (), memo)
    else
      firstSuccess (logged_reach_loop_inner graph root window_end fuel edge.vertex) range.offsets memo

theorem logged_reach_loop_spec (hslices : Sliced graph) {fuel v : Nat} {previous : Int}
    {edge : AdjacencyEntry} (he : edge ∈ graph.outgoing_row v)
    (hrec : ∀ offset ∈ (event_graph graph).later window_end previous (edge_events edge),
      Logged graph root window_end written
        (can_reach_root graph root window_end fuel edge.vertex
          (timestamp_at graph.timestamps offset))
        (logged_can_reach_root graph root window_end fuel edge.vertex
          (timestamp_at graph.timestamps offset))) :
    Logged graph root window_end written (reach_loop graph root window_end fuel previous edge)
      (logged_reach_loop graph root window_end fuel previous edge) := by
  obtain ⟨range, hr, ho⟩ := timestamps_after_later hslices he previous window_end
  rw [← ho] at hrec
  unfold reach_loop logged_reach_loop
  rw [hr]
  by_cases hempty : range.empty = true
  · simp only [bind, Except.bind, if_pos hempty]
    exact logged_return none
  by_cases hroot : edge.vertex = root
  · simp only [bind, Except.bind, if_neg hempty, if_pos hroot]
    exact logged_return (some ())
  · have hinner : Logged graph root window_end written
        (Enumeration.firstSuccess (reach_loop_inner graph root window_end fuel edge.vertex)
          range.offsets)
        (Enumeration.firstSuccess (logged_reach_loop_inner graph root window_end fuel edge.vertex)
          range.offsets) :=
      Logged.firstSuccess fun offset hoffset =>
        (hrec offset hoffset).bind fun reached => logged_return (if reached then some () else none)
    simp only [bind, Except.bind, if_neg hempty, if_neg hroot]
    exact hinner

-- A call writes times from its own on. Those of the calls inside it are later, so that
-- the entry it read at its start is still not below its own time.
theorem logged_can_reach_root_spec (hslices : Sliced graph) (fuel v : Nat) (previous : Int)
    (hfuel : times_after graph previous < fuel) :
    Logged graph root window_end (previous ≤ ·) (can_reach_root graph root window_end fuel v previous)
      (logged_can_reach_root graph root window_end fuel v previous) := by
  induction fuel generalizing v previous with
  | zero => omega
  | succ fuel ih =>
      intro closing_after log hs
      obtain ⟨reached, final, hcall, -, hreached⟩ :=
        can_reach_root_spec hslices (fuel + 1) v previous hfuel closing_after hs
      by_cases hclosed : (closing_after v).any (· ≤ previous) = true
      · refine ⟨false, closing_after, [], ?_, ?_, .start⟩
        · rw [can_reach_root]
          exact if_pos hclosed
        · rw [logged_can_reach_root, List.append_nil]
          exact if_pos hclosed
      have hloop : Logged graph root window_end (previous < ·)
          (Enumeration.firstSuccess (reach_loop graph root window_end fuel previous)
            (graph.outgoing_row v))
          (Enumeration.firstSuccess (logged_reach_loop graph root window_end fuel previous)
            (graph.outgoing_row v)) := by
        refine Logged.firstSuccess fun edge hedge => logged_reach_loop_spec hslices hedge fun offset ho => ?_
        have hlater := times_after_lt hslices hedge ho
        have hafter : previous < timestamp_at graph.timestamps offset :=
          (EventGraph.mem_later.mp ho).2.1
        exact (ih edge.vertex _ (by omega)).mono fun time htime => by omega
      obtain ⟨result, closing_after', added, hrun, hlogged, hmoments⟩ := hloop closing_after log hs
      have hrun' : can_reach_root graph root window_end (fuel + 1) v previous closing_after =
          if result.isSome then .ok (true, closing_after')
          else if (closing_after v).all (previous < ·) then
            .ok (false, Function.update closing_after' v (some previous))
          else .ok (false, closing_after') := by
        rw [can_reach_root]
        dsimp only
        rw [if_neg hclosed]
        change (firstSuccess (reach_loop graph root window_end fuel previous) (graph.outgoing_row v)
          closing_after).bind _ = _
        rw [hrun]
        rfl
      have hlogged' : logged_can_reach_root graph root window_end (fuel + 1) v previous
            ⟨closing_after, log⟩ =
          if result.isSome then .ok (true, ⟨closing_after', log ++ added⟩)
          else if (closing_after v).all (previous < ·) then
            .ok (false, (⟨closing_after', log ++ added⟩ : ClosingLog).write v previous)
          else .ok (false, ⟨closing_after', log ++ added⟩) := by
        rw [logged_can_reach_root]
        dsimp only
        rw [if_neg hclosed]
        change (firstSuccess (logged_reach_loop graph root window_end fuel previous)
          (graph.outgoing_row v) ⟨closing_after, log⟩).bind _ = _
        rw [hlogged]
        rfl
      have hkept := hmoments.mono fun time htime => Int.le_of_lt htime
      cases result with
      | some _ => exact ⟨true, closing_after', added, hrun', hlogged', hkept⟩
      | none =>
          rw [if_neg (by simp)] at hrun' hlogged'
          split_ifs at hrun' hlogged' with hall
          · have hno : ¬LeadsBack (event_graph graph) window_end root v previous := by
              rw [hrun'] at hcall
              obtain ⟨rfl, -⟩ := Prod.mk.inj (Except.ok.inj hcall)
              simpa using hreached.not.mp
            have hlower : ∀ old ∈ closing_after' v, previous < old := by
              intro old hold
              rcases hmoments.entry v with hsame | ⟨time, htime, hlater⟩
              · rw [hsame] at hold
                simpa [Option.mem_def.mp hold] using hall
              · rw [htime] at hold
                obtain rfl := Option.some.inj hold
                exact hlater
            refine ⟨false, _, _, hrun', ?_, .write hkept (Int.le_refl previous) hlower hno⟩
            rw [hlogged', ClosingLog.write, List.append_assoc]
          · exact ⟨false, closing_after', added, hrun', hlogged', hkept⟩

end Logged

section Calls

theorem times_after_lt_reach_fuel (graph : GraphView) (time : Int) :
    times_after graph time < reach_fuel graph :=
  Nat.lt_succ_of_le List.countP_le_length

-- Calls that start from a right cache.
theorem call_all_logged (hslices : Sliced graph) (calls : List (Nat × Int)) :
    Logged graph root window_end (fun _ => True)
      (call_all (can_reach_root graph root window_end (reach_fuel graph)) calls)
      (call_all (logged_can_reach_root graph root window_end (reach_fuel graph)) calls) := by
  induction calls with
  | nil => exact logged_return []
  | cons call calls ih =>
      have hcall : Logged graph root window_end (fun _ => True)
          (can_reach_root graph root window_end (reach_fuel graph) call.1 call.2)
          (logged_can_reach_root graph root window_end (reach_fuel graph) call.1 call.2) :=
        (logged_can_reach_root_spec hslices (reach_fuel graph) call.1 call.2
          (times_after_lt_reach_fuel graph call.2)).mono fun _ _ => trivial
      exact hcall.bind fun reached => ih.bind fun more => logged_return (reached :: more)

theorem call_all_reached (hslices : Sliced graph) (calls : List (Nat × Int))
    {closing_after : ClosingTimes} (hs : closing_after.Sound graph root window_end) :
    ∃ results closing_after', call_all (can_reach_root graph root window_end (reach_fuel graph))
        calls closing_after = .ok (results, closing_after') ∧
      List.Forall₂ (fun call reached => reached = true ↔
        LeadsBack (event_graph graph) window_end root call.1 call.2) calls results := by
  induction calls generalizing closing_after with
  | nil => exact ⟨[], closing_after, rfl, .nil⟩
  | cons call calls ih =>
      obtain ⟨reached, middle, hcall, hs', hreached⟩ := can_reach_root_spec hslices (reach_fuel graph)
        call.1 call.2 (times_after_lt_reach_fuel graph call.2) closing_after hs
      obtain ⟨results, finish, hcalls, hresults⟩ := ih hs'
      refine ⟨reached :: results, finish, ?_, .cons hreached hresults⟩
      rw [call_all, hcall]
      simp only [bind, Except.bind, hcalls]
      rfl

-- After a reset, the calls all end with the fuel that the graph gives, and each finds the
-- root exactly when a walk leads there. At every moment the cache is right, and its entries
-- are only lowered.
def MemoExact (graph : GraphView) (root : Nat) (window_end : Int) (calls : List (Nat × Int)) :
    Prop :=
  ∃ results closing_after log,
    call_all (can_reach_root graph root window_end (reach_fuel graph)) calls ClosingTimes.none =
      .ok (results, closing_after) ∧
    call_all (logged_can_reach_root graph root window_end (reach_fuel graph)) calls
      ⟨ClosingTimes.none, []⟩ = .ok (results, ⟨closing_after, log⟩) ∧
    (ClosingTimes.none :: log).getLast? = some closing_after ∧
    List.Forall₂ (fun call reached => reached = true ↔ WalksBack graph root window_end call.1 call.2)
      calls results ∧
    (∀ cache ∈ ClosingTimes.none :: log, ∀ v, ∀ closed ∈ cache v, ∀ time, closed ≤ time →
      ¬WalksBack graph root window_end v time) ∧
    (ClosingTimes.none :: log).Pairwise Descends

theorem memo_exact (hslices : Sliced graph) (hstart : graph.outgoing_offsets.getD 0 0 = 0)
    (hseen : WaysBackSeen graph root window_end) (calls : List (Nat × Int)) :
    MemoExact graph root window_end calls := by
  have hs := ClosingTimes.sound_none graph root window_end
  obtain ⟨results, closing_after, log, hrun, hlogged, hmoments⟩ :=
    call_all_logged hslices calls ClosingTimes.none [] hs
  obtain ⟨results', closing_after', hrun', hresults⟩ := call_all_reached hslices calls hs
  obtain ⟨rfl, -⟩ := Prod.mk.inj (Except.ok.inj (hrun.symm.trans hrun'))
  refine ⟨results, closing_after, log, hrun, hlogged, hmoments.last, ?_, ?_, hmoments.descends.2⟩
  · exact hresults.imp fun call reached h => h.trans (walks_back_iff hstart hseen).symm
  intro cache hcache v closed hclosed time hle hwalks
  have hsound : cache.Sound graph root window_end := by
    rcases List.mem_cons.mp hcache with rfl | hlog
    · exact hs
    · exact (hmoments.sound hs).2 cache hlog
  exact hsound v closed hclosed (((walks_back_iff hstart hseen).mp hwalks).earlier hle)

-- Below 2^32 vertices the memo is exact in every sequence of calls, and above where the
-- rows of the last id are not needed to get back to the root.
theorem closing_times_exact (hp : Parsed graph) (root : Nat) (window_end : Int) :
    (∀ calls, MemoExact graph root window_end calls) ↔
      graph.vertex_count < 2 ^ 32 ∨ WaysBackSeen graph root window_end := by
  have hslices := hp.trails_end.slices
  have hstart := hp.outgoing_start
  constructor
  · intro hexact
    refine Or.inr fun v time hwalks => ?_
    obtain ⟨results, closing_after, log, hrun, -, -, hresults, -⟩ := hexact [(v, time)]
    obtain ⟨results', closing_after', hrun', hresults'⟩ :=
      call_all_reached hslices [(v, time)] (ClosingTimes.sound_none graph root window_end)
    obtain ⟨rfl, -⟩ := Prod.mk.inj (Except.ok.inj (hrun.symm.trans hrun'))
    obtain ⟨reached, others, hreached, -, rfl⟩ := List.forall₂_cons_left_iff.mp hresults
    have hleads := (List.forall₂_cons.mp hresults').1
    exact (leads_back_iff_walk hstart).mp (hleads.mp (hreached.mpr hwalks))
  · intro hcondition calls
    have hseen : WaysBackSeen graph root window_end :=
      hcondition.elim (fun hids => ways_back_seen (hp.well_formed hids)) id
    exact memo_exact hslices hstart hseen calls

theorem closing_times_exact_sample :
    MemoExact (view_of sample_rows) 0 11 [(1, 4), (2, 3), (1, 5), (2, 2)] :=
  (closing_times_exact sample_parsed 0 11).mpr (Or.inl (by decide)) [(1, 4), (2, 3), (1, 5), (2, 2)]

-- A vertex whose row is read as empty reaches no root.
theorem can_reach_root_of_row {v : Nat} (hrow : graph.outgoing_row v = []) (fuel : Nat) (time : Int)
    {closing_after last : ClosingTimes} {reached : Bool}
    (h : can_reach_root graph root window_end fuel v time closing_after = .ok (reached, last)) :
    reached = false := by
  cases fuel with
  | zero => cases h
  | succ fuel =>
      rw [can_reach_root, hrow] at h
      dsimp only at h
      by_cases hclosed : (closing_after v).any (· ≤ time) = true
      · rw [if_pos hclosed] at h
        exact (Prod.mk.inj (Except.ok.inj h)).1.symm
      · rw [if_neg hclosed] at h
        obtain ⟨found, hfound, hlast⟩ := bind_ok h
        obtain rfl := Except.ok.inj hfound
        rw [if_neg (by simp)] at hlast
        split_ifs at hlast
        · exact (Prod.mk.inj (Except.ok.inj hlast)).1.symm
        · exact (Prod.mk.inj (Except.ok.inj hlast)).1.symm

-- An event leads from the last vertex to the root, but its row is read as empty.
theorem closing_times_lost :
    Parsed back_view ∧ ¬MemoExact back_view (2 ^ 32 - 2) 1 [(2 ^ 32 - 1, 0)] := by
  refine ⟨back_view_parsed, fun h => ?_⟩
  obtain ⟨results, closing_after, log, hrun, -, -, hresults, -⟩ := h
  obtain ⟨reached, others, hreached, -, rfl⟩ := List.forall₂_cons_left_iff.mp hresults
  obtain ⟨edge, hedge, hroot, offset, hbegin, hend, htime⟩ := back_view_event
  have hwalk : WalksBack back_view (2 ^ 32 - 2) 1 (2 ^ 32 - 1) 0 := by
    refine ⟨[(edge, offset)], List.cons_ne_nil _ _, hedge, hbegin, hend, ?_, ?_, hroot⟩
    · rw [htime]
      decide
    · rw [htime]
  obtain ⟨⟨first, last⟩, hcall, hrest⟩ := bind_ok hrun
  obtain ⟨⟨more, finish⟩, -, hresult⟩ := bind_ok hrest
  have hfirst : first = reached :=
    (List.cons.inj (Prod.mk.inj (Except.ok.inj hresult)).1).1
  have hnone := can_reach_root_of_row back_view_last _ _ hcall
  rw [← hfirst, hnone] at hreached
  exact Bool.false_ne_true (hreached.mpr hwalk)

end Calls

end CycleEnum.Sequential
