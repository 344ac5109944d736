import CycleEnum.Sequential.TemporalClosings
import CycleEnum.Enumeration.Loops

namespace CycleEnum.Sequential

open Enumeration

-- `closing_after_`: from this time on a vertex no longer leads to the root.
abbrev ClosingTimes := Nat → Option Int

def ClosingTimes.none : ClosingTimes := fun _ => Option.none

-- The same function stands in the temporal Johnson and Read-Tarjan searches.
def can_reach_root (graph : GraphView) (root : Nat) (window_end : Int) :
    Nat → Nat → Int → ClosingTimes → Except Error (Bool × ClosingTimes)
  | 0, _, _, _ => throw .unfinished
  | fuel + 1, current, previous_timestamp, closing_after => do
      let closed_after := closing_after current
      if closed_after.any (· ≤ previous_timestamp) then return (false, closing_after)
      else do
        let (reached, closing_after) ← firstSuccess (fun edge closing_after => do
          let range ← timestamps_after graph.timestamps edge.timestamp_begin edge.timestamp_end
            previous_timestamp window_end
          if range.empty then return (none, closing_after)
          else if edge.vertex = root then return (some (), closing_after)
          else
            firstSuccess (fun timestamp_offset closing_after => do
              let (reached, closing_after) ← can_reach_root graph root window_end fuel edge.vertex
                (timestamp_at graph.timestamps timestamp_offset) closing_after
              return (if reached then some () else none, closing_after)) range.offsets closing_after)
          (graph.outgoing_row current) closing_after
        if reached.isSome then return (true, closing_after)
        else if closed_after.all (previous_timestamp < ·) then
          return (false, Function.update closing_after current (some previous_timestamp))
        else return (false, closing_after)

-- The times that can still follow bound the recursion.
def reach_fuel (graph : GraphView) : Nat := graph.timestamps.length + 1

def ClosingTimes.Sound (graph : GraphView) (root : Nat) (window_end : Int)
    (closing_after : ClosingTimes) : Prop :=
  ∀ v, ∀ time ∈ closing_after v, ¬LeadsBack (event_graph graph) window_end root v time

theorem ClosingTimes.sound_none (graph : GraphView) (root : Nat) (window_end : Int) :
    ClosingTimes.none.Sound graph root window_end := by
  intro v time h
  cases h

variable {graph : GraphView} {root : Nat} {window_end : Int}

-- A failed search is remembered rightly.
theorem ClosingTimes.Sound.update {closing_after : ClosingTimes}
    (h : closing_after.Sound graph root window_end) {v : Nat} {time : Int}
    (hno : ¬LeadsBack (event_graph graph) window_end root v time) :
    ClosingTimes.Sound graph root window_end (Function.update closing_after v (some time)) := by
  intro x t ht
  by_cases hx : x = v
  · subst hx
    rw [Function.update_self] at ht
    obtain rfl := Option.some.inj ht
    exact hno
  · rw [Function.update_of_ne hx] at ht
    exact h x t ht

-- The timestamps of the graph after a time.
def times_after (graph : GraphView) (time : Int) : Nat := graph.timestamps.countP (time < ·)

theorem times_after_lt (hslices : Sliced graph) {v : Nat} {edge : AdjacencyEntry}
    (he : edge ∈ graph.outgoing_row v) {previous : Int} {offset : Nat}
    (ho : offset ∈ (event_graph graph).later window_end previous (edge_events edge)) :
    times_after graph (timestamp_at graph.timestamps offset) < times_after graph previous := by
  obtain ⟨ho, hlt, -⟩ := EventGraph.mem_later.mp ho
  rw [edge_events, List.mem_range'_1] at ho
  have hle := hslices v edge he
  have hbound : offset < graph.timestamps.length := by
    have := hle.le
    have := hle.le_length
    omega
  rw [event_graph_time] at hlt
  have hmem : timestamp_at graph.timestamps offset ∈ graph.timestamps := by
    rw [timestamp_at, List.getD_eq_getElem _ _ hbound]
    exact List.getElem_mem _
  rw [times_after, times_after, List.countP_eq_length_filter, List.countP_eq_length_filter]
  have hsub : graph.timestamps.filter (timestamp_at graph.timestamps offset < ·) =
      (graph.timestamps.filter (previous < ·)).filter (timestamp_at graph.timestamps offset < ·) := by
    rw [List.filter_filter]
    refine List.filter_congr fun time _ => ?_
    rw [Bool.eq_iff_iff]
    simp only [Bool.and_eq_true, decide_eq_true_eq]
    omega
  rw [hsub]
  exact List.length_filter_lt_length_iff_exists.mpr
    ⟨_, List.mem_filter.mpr ⟨hmem, by simpa using hlt⟩, by simp⟩

theorem leads_back_iff_edge {v : Nat} {previous : Int} :
    LeadsBack (event_graph graph) window_end root v previous ↔
      ∃ edge ∈ graph.outgoing_row v,
        ∃ offset ∈ (event_graph graph).later window_end previous (edge_events edge),
          edge.vertex = root ∨ LeadsBack (event_graph graph) window_end root edge.vertex
            (timestamp_at graph.timestamps offset) := by
  rw [leads_back_iff, event_graph_arcs]
  simp only [List.mem_map, exists_exists_and_eq_and, event_graph_time]

-- A loop that stops at the first success finds one exactly when some round has one,
-- if every round keeps what is remembered right.
theorem firstSuccess_sound {β : Type} (row : List β)
    (visit : β → ClosingTimes → Except Error (Option Unit × ClosingTimes)) (leads : β → Prop)
    (hvisit : ∀ x ∈ row, ∀ closing_after : ClosingTimes,
      closing_after.Sound graph root window_end → ∃ result closing_after',
        visit x closing_after = .ok (result, closing_after') ∧
          closing_after'.Sound graph root window_end ∧ (result.isSome = true ↔ leads x))
    {closing_after : ClosingTimes} (h : closing_after.Sound graph root window_end) :
    ∃ result closing_after', firstSuccess visit row closing_after = .ok (result, closing_after') ∧
      closing_after'.Sound graph root window_end ∧ (result.isSome = true ↔ ∃ x ∈ row, leads x) := by
  obtain ⟨result, closing_after', he, hgoal, hnone⟩ := firstSuccess_spec visit row
    (fun before closing_after => closing_after.Sound graph root window_end ∧ ∀ x ∈ before, ¬leads x)
    (fun _ closing_after => closing_after.Sound graph root window_end ∧ ∃ x ∈ row, leads x)
    (by
      rintro before x after closing_after hsplit ⟨hs, hbefore⟩
      have hx : x ∈ row := by simp [hsplit]
      obtain ⟨result, closing_after', he, hs', hiff⟩ := hvisit x hx closing_after hs
      refine ⟨result, closing_after', he, fun a ha => ⟨hs', x, hx, hiff.mp ?_⟩, fun hn => ⟨hs', ?_⟩⟩
      · exact Option.isSome_of_mem ha
      · subst hn
        intro y hy
        rcases List.mem_append.mp hy with hy | hy
        · exact hbefore y hy
        · obtain rfl := List.mem_singleton.mp hy
          exact fun hl => absurd (hiff.mpr hl) (by simp))
    closing_after ⟨h, by simp⟩
  refine ⟨result, closing_after', he, ?_⟩
  cases result with
  | none =>
      obtain ⟨hs, hno⟩ := hnone rfl
      exact ⟨hs, by simpa using hno⟩
  | some a =>
      obtain ⟨hs, hex⟩ := hgoal a rfl
      exact ⟨hs, by simpa using hex⟩

-- The bodies of the two loops of `can_reach_root`.
def reach_loop_inner (graph : GraphView) (root : Nat) (window_end : Int) (fuel vertex : Nat) :
    Nat → ClosingTimes → Except Error (Option Unit × ClosingTimes) :=
  fun timestamp_offset closing_after => do
    let (reached, closing_after) ← can_reach_root graph root window_end fuel vertex
      (timestamp_at graph.timestamps timestamp_offset) closing_after
    return (if reached then some () else none, closing_after)

def reach_loop (graph : GraphView) (root : Nat) (window_end : Int) (fuel : Nat)
    (previous_timestamp : Int) :
    AdjacencyEntry → ClosingTimes → Except Error (Option Unit × ClosingTimes) :=
  fun edge closing_after => do
    let range ← timestamps_after graph.timestamps edge.timestamp_begin edge.timestamp_end
      previous_timestamp window_end
    if range.empty then return (none, closing_after)
    else if edge.vertex = root then return (some (), closing_after)
    else
      firstSuccess (reach_loop_inner graph root window_end fuel edge.vertex) range.offsets closing_after

-- What a call establishes.
def ReachesRightly (graph : GraphView) (root : Nat) (window_end : Int) (fuel v : Nat)
    (previous : Int) : Prop :=
  ∀ closing_after : ClosingTimes, closing_after.Sound graph root window_end →
    ∃ reached closing_after', can_reach_root graph root window_end fuel v previous closing_after =
        .ok (reached, closing_after') ∧ closing_after'.Sound graph root window_end ∧
      (reached = true ↔ LeadsBack (event_graph graph) window_end root v previous)

theorem reach_loop_spec (hslices : Sliced graph) {fuel v : Nat} {previous : Int}
    {edge : AdjacencyEntry} (he : edge ∈ graph.outgoing_row v)
    (hrec : ∀ offset ∈ (event_graph graph).later window_end previous (edge_events edge),
      ReachesRightly graph root window_end fuel edge.vertex (timestamp_at graph.timestamps offset))
    (closing_after : ClosingTimes) (h : closing_after.Sound graph root window_end) :
    ∃ result closing_after', reach_loop graph root window_end fuel previous edge closing_after =
        .ok (result, closing_after') ∧ closing_after'.Sound graph root window_end ∧
      (result.isSome = true ↔
        ∃ offset ∈ (event_graph graph).later window_end previous (edge_events edge),
          edge.vertex = root ∨ LeadsBack (event_graph graph) window_end root edge.vertex
            (timestamp_at graph.timestamps offset)) := by
  obtain ⟨range, hr, ho⟩ := timestamps_after_later hslices he previous window_end
  rw [← ho] at hrec ⊢
  rw [reach_loop, hr]
  by_cases hempty : range.offsets = []
  · refine ⟨none, closing_after, ?_, h, by simp [hempty]⟩
    change (if range.empty = true then _ else _) = _
    rw [if_pos ((range.empty_iff).mpr hempty)]
    rfl
  have hne : ¬range.empty = true := fun hc => hempty ((range.empty_iff).mp hc)
  obtain ⟨offset, hoffset⟩ := List.exists_mem_of_ne_nil _ hempty
  by_cases hroot : edge.vertex = root
  · refine ⟨some (), closing_after, ?_, h, by simpa [hroot] using ⟨offset, hoffset⟩⟩
    change (if range.empty = true then _ else if _ then _ else _) = _
    rw [if_neg hne, if_pos hroot]
    rfl
  obtain ⟨result, closing_after', hrun, hs, hiff⟩ := firstSuccess_sound range.offsets
    (reach_loop_inner graph root window_end fuel edge.vertex)
    (fun offset => LeadsBack (event_graph graph) window_end root edge.vertex
      (timestamp_at graph.timestamps offset))
    (fun offset hoffset closing_after hs => by
      obtain ⟨reached, closing_after', hcall, hs', hreach⟩ := hrec offset hoffset closing_after hs
      refine ⟨if reached then some () else none, closing_after', ?_, hs', ?_⟩
      · rw [reach_loop_inner, hcall]
        rfl
      · rw [← hreach]
        cases reached <;> simp) h
  refine ⟨result, closing_after', ?_, hs, by simpa [hroot] using hiff⟩
  change (if range.empty = true then _ else if _ then _ else _) = _
  rw [if_neg hne, if_neg hroot]
  exact hrun

-- The search finds a way to the root exactly when there is one, and what it
-- remembers stays right.
theorem can_reach_root_spec (hslices : Sliced graph) (fuel : Nat) (v : Nat) (previous : Int)
    (hfuel : times_after graph previous < fuel) :
    ReachesRightly graph root window_end fuel v previous := by
  induction fuel generalizing v previous with
  | zero => omega
  | succ fuel ih =>
      intro closing_after h
      by_cases hclosed : (closing_after v).any (· ≤ previous) = true
      · obtain ⟨time, ht, hle⟩ := (Option.any_eq_true _ _).mp hclosed
        have hno : ¬LeadsBack (event_graph graph) window_end root v previous := fun hl =>
          h v time ht (hl.earlier (by simpa using hle))
        exact ⟨false, closing_after, by rw [can_reach_root]; exact if_pos hclosed, h, by simp [hno]⟩
      obtain ⟨result, closing_after', hrun, hs, hiff⟩ := firstSuccess_sound (graph.outgoing_row v)
        (reach_loop graph root window_end fuel previous) _
        (fun edge hedge => reach_loop_spec hslices hedge fun offset ho => ih edge.vertex _ (by
          have := times_after_lt hslices hedge ho
          omega)) h
      rw [← leads_back_iff_edge] at hiff
      have hcall : can_reach_root graph root window_end (fuel + 1) v previous closing_after =
          if result.isSome then .ok (true, closing_after')
          else if (closing_after v).all (previous < ·) then
            .ok (false, Function.update closing_after' v (some previous))
          else .ok (false, closing_after') := by
        rw [can_reach_root]
        dsimp only
        rw [if_neg hclosed]
        change (firstSuccess (reach_loop graph root window_end fuel previous) (graph.outgoing_row v)
          closing_after).bind _ = _
        rw [hrun]
        rfl
      rw [hcall]
      cases result with
      | some _ => exact ⟨true, closing_after', rfl, hs, by simpa using hiff⟩
      | none =>
          have hno : ¬LeadsBack (event_graph graph) window_end root v previous := by
            simpa using hiff
          rw [if_neg (by simp)]
          split_ifs
          · exact ⟨false, _, rfl, hs.update hno, by simp [hno]⟩
          · exact ⟨false, _, rfl, hs, by simp [hno]⟩

end CycleEnum.Sequential
