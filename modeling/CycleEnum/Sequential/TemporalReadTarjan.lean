import CycleEnum.Sequential.ClosingTime

namespace CycleEnum.Sequential

open Enumeration

-- `visited_` and `path_` with `closing_after_`.
structure TimedState where
  path : PathState
  closing_after : ClosingTimes

namespace TimedState

def push (state : TimedState) (vertex : Nat) : TimedState :=
  { state with path := state.path.push vertex }

def pop (state : TimedState) (vertex : Nat) : TimedState :=
  { state with path := state.path.pop vertex }

def start (root first_vertex : Nat) : TimedState :=
  ⟨PathState.start root first_vertex, ClosingTimes.none⟩

end TimedState

namespace TemporalReadTarjanSearch

def extend (graph : GraphView) (max_cycle_length : Option Nat) (root : Nat) (window_end : Int) :
    Nat → Nat → Int → TimedState → Search TimedState
  | 0, _, _, _ => Search.finished none
  | fuel + 1, current, previous_timestamp, state => do
      let (reached, closing_after) ← Search.ofExcept (can_reach_root graph root window_end
        (reach_fuel graph) current previous_timestamp state.closing_after)
      if !reached then return { state with closing_after }
      else
        (graph.outgoing_row current).foldlM (fun (state : TimedState) edge => do
          let range ← Search.ofExcept (timestamps_after graph.timestamps edge.timestamp_begin
            edge.timestamp_end previous_timestamp window_end)
          if range.empty then return state
          else if edge.vertex = root ∧ 2 ≤ state.path.path.length then do
            Search.increment (length_of_size state.path.path.length) range.size
            return state
          else if state.path.visited edge.vertex then return state
          else if cut max_cycle_length state.path.path.length then return state
          else do
            let state ← range.offsets.foldlM (fun state timestamp_offset =>
              extend graph max_cycle_length root window_end fuel edge.vertex
                (timestamp_at graph.timestamps timestamp_offset) state) (state.push edge.vertex)
            return state.pop edge.vertex) { state with closing_after }

def start (graph : GraphView) (window_width : Int) (max_cycle_length : Option Nat) (root : Nat)
    (start_edge : AdjacencyEntry) (start_timestamp : Int) : Search Unit := do
  let window_end ← Search.ofExcept (checked_window_end start_timestamp window_width)
  let _ ← extend graph max_cycle_length root window_end graph.vertex_count start_edge.vertex
    start_timestamp (TimedState.start root start_edge.vertex)

def run (graph : GraphView) (window_width : Int) (max_cycle_length : Option Nat) : Search Unit :=
  for_each_start graph (start graph window_width max_cycle_length)

end TemporalReadTarjanSearch

def count_temporal_cycles_read_tarjan (graph : GraphView) (window_width : Int)
    (max_cycle_length : Option Nat) : Except Error CycleHistogram := do
  validate_max_cycle_length max_cycle_length
  let _ ← checked_window_end 0 window_width
  (TemporalReadTarjanSearch.run graph window_width max_cycle_length).histogram

-- The state of a search whose path is `stack`.
def TimedState.OnStack (graph : GraphView) (root : Nat) (window_end : Int) (stack : List Nat)
    (state : TimedState) : Prop :=
  state.path = PathState.at stack ∧ state.closing_after.Sound graph root window_end

variable {graph : GraphView} {cap : Option Nat} {width : Int}

theorem TimedState.OnStack.push {root : Nat} {window_end : Int} {stack : List Nat}
    {state : TimedState} (h : state.OnStack graph root window_end stack) (vertex : Nat) :
    (state.push vertex).OnStack graph root window_end (vertex :: stack) :=
  ⟨by rw [TimedState.push, h.1, PathState.push_at], h.2⟩

theorem TimedState.OnStack.pop {root : Nat} {window_end : Int} {stack : List Nat} {vertex : Nat}
    {state : TimedState} (h : state.OnStack graph root window_end (vertex :: stack))
    (hv : vertex ∉ stack) : (state.pop vertex).OnStack graph root window_end stack :=
  ⟨by rw [TimedState.pop, h.1, PathState.pop_at hv], h.2⟩

theorem TimedState.on_stack_start (graph : GraphView) (root first : Nat) (window_end : Int) :
    (TimedState.start root first).OnStack graph root window_end [first, root] :=
  ⟨PathState.start_eq root first, ClosingTimes.sound_none graph root window_end⟩

-- A call asks whether the root can still be reached.
theorem can_reach_root_emits (hslices : Sliced graph) (root : Nat) (window_end : Int) (v : Nat)
    (previous : Int) {stack : List Nat} {state : TimedState}
    (h : state.OnStack graph root window_end stack) :
    ∃ reached closing_after, Search.Emits (Search.ofExcept (can_reach_root graph root window_end
        (reach_fuel graph) v previous state.closing_after)) (reached, closing_after) [] ∧
      TimedState.OnStack graph root window_end stack { state with closing_after } ∧
      (reached = true ↔ LeadsBack (event_graph graph) window_end root v previous) := by
  obtain ⟨reached, closing_after, hr, hs, hiff⟩ := can_reach_root_spec hslices (reach_fuel graph) v
    previous (Nat.lt_succ_of_le List.countP_le_length) state.closing_after h.2
  exact ⟨reached, closing_after, Search.emits_ofExcept hr, ⟨h.1, hs⟩, hiff⟩

namespace TemporalReadTarjanSearch

-- The loop body of `extend`.
def extend_loop (graph : GraphView) (cap : Option Nat) (root : Nat) (window_end : Int)
    (fuel : Nat) (previous_timestamp : Int) : TimedState → AdjacencyEntry → Search TimedState :=
  fun state edge => do
    let range ← Search.ofExcept (timestamps_after graph.timestamps edge.timestamp_begin
      edge.timestamp_end previous_timestamp window_end)
    if range.empty then return state
    else if edge.vertex = root ∧ 2 ≤ state.path.path.length then do
      Search.increment (length_of_size state.path.path.length) range.size
      return state
    else if state.path.visited edge.vertex then return state
    else if cut cap state.path.path.length then return state
    else do
      let state ← range.offsets.foldlM (fun state timestamp_offset =>
        extend graph cap root window_end fuel edge.vertex
          (timestamp_at graph.timestamps timestamp_offset) state) (state.push edge.vertex)
      return state.pop edge.vertex

-- What a call adds, whatever is remembered when it starts.
def Extends (graph : GraphView) (cap : Option Nat) (root : Nat) (window_end : Int) (fuel v : Nat)
    (below : List Nat) (previous : Int) : Prop :=
  ∀ state : TimedState, state.OnStack graph root window_end (v :: below) →
    ∃ state' : TimedState, state'.OnStack graph root window_end (v :: below) ∧
      (extend graph cap root window_end fuel v previous state).Emits state'
        ((timed_closings (event_graph graph) window_end root cap fuel (v :: below) previous).map
          timed_event)

theorem extend_loop_emits (hw : graph.WellFormed) {root : Nat} {window_end : Int} {fuel v : Nat}
    {previous : Int} {below : List Nat} {edge : AdjacencyEntry} (he : edge ∈ graph.outgoing_row v)
    (hroot : 2 ≤ (v :: below).length)
    (hrec : edge.vertex ∉ v :: below → ∀ time : Int,
      Extends graph cap root window_end fuel edge.vertex (v :: below) time)
    (state : TimedState) (hstate : state.OnStack graph root window_end (v :: below)) :
    ∃ state' : TimedState, state'.OnStack graph root window_end (v :: below) ∧
      (extend_loop graph cap root window_end fuel previous state edge).Emits state'
        ((timed_row graph cap root window_end fuel v below previous edge).map timed_event) := by
  obtain ⟨range, hr, ho⟩ := timestamps_after_later hw.slices he previous window_end
  have hread := Search.emits_ofExcept hr
  have hpath : state.path.path = v :: below := by rw [hstate.1]; rfl
  have hvisited : state.path.visited edge.vertex = true ↔ edge.vertex ∈ v :: below := by
    rw [hstate.1]
    simp [PathState.at]
  rw [timed_row, ← ho]
  by_cases hempty : range.offsets = []
  · rw [if_pos hempty]
    refine ⟨state, hstate, hread.silent ?_⟩
    rw [if_pos ((range.empty_iff).mpr hempty)]
    exact Search.emits_pure _
  have hne : ¬range.empty = true := fun hc => hempty ((range.empty_iff).mp hc)
  rw [if_neg hempty]
  by_cases hr : edge.vertex = root
  · rw [if_pos hr, ← range.size_eq]
    refine ⟨state, hstate, hread.silent ?_⟩
    rw [if_neg hne, if_pos ⟨hr, hpath ▸ hroot⟩, hpath]
    exact (Search.emits_increment _ _).then (Search.emits_pure _)
  rw [if_neg hr]
  by_cases hm : edge.vertex ∈ v :: below
  · rw [if_pos hm]
    refine ⟨state, hstate, hread.silent ?_⟩
    rw [if_neg hne, if_neg fun hc => hr hc.1, if_pos (hvisited.mpr hm)]
    exact Search.emits_pure _
  rw [if_neg hm]
  by_cases hc : cut cap (v :: below).length = true
  · rw [if_pos hc]
    refine ⟨state, hstate, hread.silent ?_⟩
    rw [if_neg hne, if_neg fun hc => hr hc.1, if_neg fun h => hm (hvisited.mp h), hpath, if_pos hc]
    exact Search.emits_pure _
  rw [if_neg hc, List.map_flatMap]
  obtain ⟨state', hs, hloop⟩ := Search.Emits.foldlM_kept
    (fun offset _ state hstate => hrec hm (timestamp_at graph.timestamps offset) state hstate)
    (state.push edge.vertex) (hstate.push edge.vertex)
  refine ⟨state'.pop edge.vertex, hs.pop hm, hread.silent ?_⟩
  rw [if_neg hne, if_neg fun hc => hr hc.1, if_neg fun h => hm (hvisited.mp h), hpath, if_neg hc]
  exact hloop.then (Search.emits_pure _)

-- Pruning leaves out only calls in which nothing closes.
theorem extend_emits (cap : Option Nat) (hw : graph.WellFormed) (root : Nat) (window_end : Int)
    (fuel : Nat) (v : Nat) (previous : Int) (below : List Nat) (h : OnPath graph root (v :: below))
    (hfuel : graph.vertex_count < (v :: below).length + fuel)
    (hroot : 2 ≤ (v :: below).length) :
    Extends graph cap root window_end fuel v below previous := by
  induction fuel generalizing v previous below with
  | zero => have := h.length_le; omega
  | succ fuel ih =>
      intro state hstate
      obtain ⟨reached, closing_after, hreach, hstate, hiff⟩ :=
        can_reach_root_emits hw.slices root window_end v previous hstate
      cases reached with
      | false =>
          have hno : ¬LeadsBack (event_graph graph) window_end root v previous := by
            simpa using hiff
          rw [timed_closings_eq_nil h.nodup hno]
          exact ⟨_, hstate, hreach.silent (Search.emits_pure _)⟩
      | true =>
          have hedge : ∀ edge ∈ graph.outgoing_row v, ∀ state : TimedState,
              state.OnStack graph root window_end (v :: below) → ∃ state' : TimedState,
                state'.OnStack graph root window_end (v :: below) ∧
                (extend_loop graph cap root window_end fuel previous state edge).Emits state'
                  ((timed_row graph cap root window_end fuel v below previous edge).map
                    timed_event) := fun edge he =>
            extend_loop_emits hw he hroot fun hm time => ih edge.vertex time (v :: below)
              (h.push hm (List.mem_range.mpr (hw.bounded v edge he).2))
              (by simp only [List.length_cons] at hfuel ⊢; omega) (by simp)
          obtain ⟨state', hs, he⟩ := Search.Emits.foldlM_kept hedge _ hstate
          rw [timed_closings_row, List.map_flatMap]
          exact ⟨state', hs, hreach.silent he⟩

theorem start_emits (cap : Option Nat) (hw : graph.WellFormed) (h0 : 0 ≤ width) {start : Start}
    (hs : start ∈ starts graph) (hno : start.time graph ≤ MAX_TIMESTAMP - width) :
    (TemporalReadTarjanSearch.start graph width cap start.root start.edge (start.time graph)).Emits ()
      ((temporal_closings graph width cap start).map timed_event) := by
  obtain ⟨state', -, he⟩ := extend_emits cap hw start.root (start.time graph + width)
    graph.vertex_count start.edge.vertex (start.time graph) [start.root] (on_path_start hw hs)
    (by simp) (by simp) _ (TimedState.on_stack_start graph start.root start.edge.vertex _)
  exact (Search.emits_ofExcept (checked_window_end_ok h0 hno)).silent
    (he.then (Search.emits_pure ()))

end TemporalReadTarjanSearch

-- With a width that is a timestamp itself the constructor's check passes.
theorem checked_window_end_zero (h0 : 0 ≤ width) (hmax : width ≤ MAX_TIMESTAMP) :
    checked_window_end 0 width = .ok width := by
  rw [checked_window_end_ok h0 (by omega), Int.zero_add]

theorem count_temporal_cycles_read_tarjan_eq (hw : graph.WellFormed) (h0 : 0 ≤ width)
    (hmax : width ≤ MAX_TIMESTAMP) (hno : NoWindowOverflow graph width)
    (hcap : ∀ limit ∈ cap, 2 ≤ limit) :
    count_temporal_cycles_read_tarjan graph width cap =
      (∅ : CycleHistogram).record (temporal_events graph width cap) := by
  rw [count_temporal_cycles_read_tarjan, validate_max_cycle_length_ok hcap,
    checked_window_end_zero h0 hmax]
  exact Search.Emits.histogram (for_each_start_emits hw fun start hs =>
    TemporalReadTarjanSearch.start_emits cap hw h0 hs (hno start hs))

end CycleEnum.Sequential
