import CycleEnum.Sequential.TemporalJohnson
import Mathlib.Algebra.BigOperators.Ring.List
import Mathlib.Algebra.Ring.Nat

namespace CycleEnum.Sequential

open Enumeration

-- The sum of a function of the arrival time over the paths of a bundle.
def weight (f : Int → Nat) (bundle : TimestampBundle) : Nat :=
  (bundle.map fun entry => entry.count * f entry.timestamp).sum

def Ascending (bundle : TimestampBundle) : Prop :=
  bundle.Pairwise fun a b => a.timestamp < b.timestamp

-- A bundle after the given arrivals, each with its number of paths, were added.
structure Collects (bundle : TimestampBundle) (added : List (Int × Nat)) (bundle' : TimestampBundle) :
    Prop where
  ascending : Ascending bundle'
  weight_eq : ∀ f, weight f bundle' = weight f bundle + (added.map fun a => a.2 * f a.1).sum
  times : ∀ time, time ∈ bundle'.map (·.timestamp) ↔
    time ∈ bundle.map (·.timestamp) ∨ time ∈ added.map (·.1)

@[simp] theorem weight_nil (f : Int → Nat) : weight f [] = 0 := rfl

@[simp] theorem weight_cons (f : Int → Nat) (entry : TimestampCount) (bundle : TimestampBundle) :
    weight f (entry :: bundle) = entry.count * f entry.timestamp + weight f bundle := rfl

theorem weight_zero (bundle : TimestampBundle) : weight (fun _ => 0) bundle = 0 := by
  induction bundle with
  | nil => rfl
  | cons entry bundle ih => rw [weight_cons, ih, Nat.mul_zero]

theorem weight_congr {f g : Int → Nat} {bundle : TimestampBundle}
    (h : ∀ entry ∈ bundle, f entry.timestamp = g entry.timestamp) : weight f bundle = weight g bundle := by
  rw [weight, weight, List.map_congr_left fun entry he => by rw [h entry he]]

theorem weight_eq_zero {f : Int → Nat} {bundle : TimestampBundle}
    (h : ∀ entry ∈ bundle, f entry.timestamp = 0) : weight f bundle = 0 := by
  rw [← weight_zero bundle]
  exact weight_congr h

theorem weight_add (f g : Int → Nat) (bundle : TimestampBundle) :
    weight (fun time => f time + g time) bundle = weight f bundle + weight g bundle := by
  induction bundle with
  | nil => rfl
  | cons entry bundle ih =>
      rw [weight_cons, weight_cons, weight_cons, ih, Nat.mul_add]
      omega

-- Arrivals and the edges of a row can be summed up in either order.
theorem weight_sum {α : Type} (row : List α) (f : α → Int → Nat) (bundle : TimestampBundle) :
    weight (fun time => (row.map fun x => f x time).sum) bundle =
      (row.map fun x => weight (f x) bundle).sum := by
  induction row with
  | nil => exact weight_zero bundle
  | cons x row ih =>
      simp only [List.map_cons, List.sum_cons]
      rw [weight_add, ih]

theorem add_count_gives (target value : Nat) : Gives (add_count target value) (· = target + value) := by
  unfold add_count
  split_ifs
  · exact Or.inl ⟨_, Or.inr rfl, rfl⟩
  · exact gives_ok rfl

theorem multiply_count_gives (count multiplier : Nat) :
    Gives (multiply_count count multiplier) (· = count * multiplier) := by
  unfold multiply_count
  split_ifs with hzero
  · refine gives_ok ?_
    rcases hzero with rfl | rfl <;> simp
  · exact Or.inl ⟨_, Or.inr rfl, rfl⟩
  · exact gives_ok rfl

theorem add_at_gives (timestamp : Int) (value : Nat) (bundle : TimestampBundle)
    (h : Ascending bundle) :
    Gives (add_at timestamp value bundle) (Collects bundle [(timestamp, value)]) := by
  induction bundle with
  | nil =>
      refine (add_count_gives 0 value).bind fun count hcount => gives_ok ⟨?_, fun f => ?_, ?_⟩
      · exact List.pairwise_singleton _ _
      · simp [hcount]
      · simp
  | cons entry bundle ih =>
      obtain ⟨hfirst, hrest⟩ := List.pairwise_cons.mp h
      rw [add_at]
      split_ifs with hlt heq
      · refine (add_count_gives 0 value).bind fun count hcount => gives_ok ⟨?_, fun f => ?_, ?_⟩
        · refine List.pairwise_cons.mpr ⟨fun other ho => ?_, h⟩
          rcases List.mem_cons.mp ho with rfl | ho
          · exact hlt
          · exact hlt.trans (hfirst other ho)
        · simp [hcount]
          omega
        · intro time
          simp [or_comm]
      · subst heq
        refine (add_count_gives entry.count value).bind fun count hcount =>
          gives_ok ⟨List.pairwise_cons.mpr ⟨hfirst, hrest⟩, fun f => ?_, fun time => ?_⟩
        · simp [hcount, Nat.add_mul]
          omega
        · simp
          tauto
      · refine (ih hrest).bind fun bundle' hb => gives_ok ⟨?_, fun f => ?_, fun time => ?_⟩
        · refine List.pairwise_cons.mpr ⟨fun other ho => ?_, hb.ascending⟩
          rcases (hb.times other.timestamp).mp (List.mem_map_of_mem ho) with hm | hm
          · obtain ⟨old, hold, he⟩ := List.mem_map.mp hm
            have := hfirst old hold
            omega
          · have : other.timestamp = timestamp := by simpa using hm
            omega
        · rw [weight_cons, weight_cons, hb.weight_eq]
          omega
        · have := hb.times time
          simp only [List.map_cons, List.mem_cons] at this ⊢
          tauto

-- Adding the arrivals of a loop, one round after the other.
theorem foldlM_collects {β : Type} {row : List β}
    {step : TimestampBundle → β → Except Error TimestampBundle} {added : β → List (Int × Nat)}
    (h : ∀ x ∈ row, ∀ bundle, Ascending bundle → Gives (step bundle x) (Collects bundle (added x)))
    (bundle : TimestampBundle) (hb : Ascending bundle) :
    Gives (row.foldlM step bundle) (Collects bundle (row.flatMap added)) := by
  induction row generalizing bundle with
  | nil => exact gives_ok ⟨hb, by simp, by simp⟩
  | cons x row ih =>
      rw [List.foldlM_cons]
      refine (h x (by simp) bundle hb).bind fun middle hm => ?_
      rcases ih (fun y hy => h y (List.mem_cons_of_mem _ hy)) middle hm.ascending with
        ho | ⟨last, he, hl⟩
      · exact Or.inl ho
      · refine Or.inr ⟨last, he, hl.ascending, fun f => ?_, fun time => ?_⟩
        · rw [hl.weight_eq, hm.weight_eq, List.flatMap_cons, List.map_append, List.sum_append]
          omega
        · rw [hl.times, hm.times, List.flatMap_cons, List.map_append, List.mem_append]
          tauto

theorem add_offsets_gives (time : Nat → Int) (value : Nat) (offsets : List Nat)
    (bundle : TimestampBundle) (hb : Ascending bundle) :
    Gives (offsets.foldlM (fun counts offset => add_at (time offset) value counts) bundle)
      (Collects bundle (offsets.map fun offset => (time offset, value))) := by
  rw [List.map_eq_flatMap]
  exact foldlM_collects (fun offset _ counts hc => add_at_gives (time offset) value counts hc) bundle hb

variable {graph : GraphView} {cap : Option Nat} {width : Int} {window : Prop}

theorem weight_collected (later : Int → List Nat) (time : Nat → Int)
    {arrivals bundle : TimestampBundle}
    (h : Collects [] (arrivals.flatMap fun arrival =>
      (later arrival.timestamp).map fun offset => (time offset, arrival.count)) bundle)
    (f : Int → Nat) :
    weight f bundle = weight (fun t => ((later t).map fun offset => f (time offset)).sum) arrivals := by
  rw [h.weight_eq, weight_nil, Nat.zero_add]
  clear h
  induction arrivals with
  | nil => rfl
  | cons arrival arrivals ih =>
      have hmul : ((later arrival.timestamp).map fun offset => arrival.count * f (time offset)).sum =
          arrival.count * ((later arrival.timestamp).map fun offset => f (time offset)).sum :=
        List.sum_map_mul_left _ _ _
      rw [List.flatMap_cons, List.map_append, List.sum_append, ih, weight_cons, List.map_map, ← hmul]
      rfl

namespace TemporalJohnsonSearch

theorem extend_bundle_gives (hslices : Sliced graph) {v : Nat} {edge : AdjacencyEntry}
    (he : edge ∈ graph.outgoing_row v) (window_end : Int) (arrivals : TimestampBundle) :
    Gives (extend_bundle graph window_end arrivals edge)
      (Collects [] (arrivals.flatMap fun arrival =>
        ((event_graph graph).later window_end arrival.timestamp (edge_events edge)).map
          fun offset => (timestamp_at graph.timestamps offset, arrival.count))) := by
  refine foldlM_collects (fun arrival _ bundle hb => ?_) [] List.Pairwise.nil
  obtain ⟨range, hr, ho⟩ := timestamps_after_later hslices he arrival.timestamp window_end
  rw [hr, ← ho]
  exact add_offsets_gives (timestamp_at graph.timestamps) arrival.count range.offsets bundle hb

theorem closing_count_gives (hslices : Sliced graph) {v : Nat} {edge : AdjacencyEntry}
    (he : edge ∈ graph.outgoing_row v) (window_end : Int) (arrivals : TimestampBundle) :
    Gives (closing_count graph window_end arrivals edge)
      (· = weight (fun time =>
        ((event_graph graph).later window_end time (edge_events edge)).length) arrivals) := by
  suffices hloop : ∀ total, Gives (arrivals.foldlM (fun total arrival => do
      let range ← timestamps_after graph.timestamps edge.timestamp_begin edge.timestamp_end
        arrival.timestamp window_end
      add_count total (← multiply_count arrival.count range.size)) total)
      (· = total + weight (fun time =>
        ((event_graph graph).later window_end time (edge_events edge)).length) arrivals) by
    simpa [closing_count] using hloop 0
  induction arrivals with
  | nil => exact fun total => gives_ok rfl
  | cons arrival arrivals ih =>
      intro total
      rw [List.foldlM_cons, weight_cons]
      obtain ⟨range, hr, ho⟩ := timestamps_after_later hslices he arrival.timestamp window_end
      rw [hr, ← ho, ← range.size_eq]
      have hround : Gives (do
          add_count total (← multiply_count arrival.count range.size))
          (· = total + arrival.count * range.size) :=
        (multiply_count_gives arrival.count range.size).bind fun product hp =>
          hp ▸ add_count_gives total product
      refine hround.bind fun sum hs => ?_
      rw [← Nat.add_assoc, ← hs]
      exact ih sum

theorem start_counts_gives (graph : GraphView) (edge : AdjacencyEntry) :
    Gives (start_counts graph edge)
      (Collects [] ((edge_events edge).map fun offset =>
        (timestamp_at graph.timestamps offset, 1))) :=
  add_offsets_gives (timestamp_at graph.timestamps) 1 (edge_events edge) [] List.Pairwise.nil

-- The loop body of `dfs`.
def dfs_loop (graph : GraphView) (cap : Option Nat) (root : Nat) (window_end : Int) (fuel : Nat)
    (arrivals : TimestampBundle) :
    Bool × TemporalJohnsonState → AdjacencyEntry → Search (Bool × TemporalJohnsonState) :=
  fun (found_cycle, state) edge => do
    if edge.vertex = root ∧ 2 ≤ state.search.path.path.length then do
      let count ← Search.ofExcept (closing_count graph window_end arrivals edge)
      if count = 0 then return (found_cycle, state)
      else do
        Search.increment (length_of_size state.search.path.path.length) count
        return (true, state)
    else if state.search.path.visited edge.vertex then return (found_cycle, state)
    else if cut cap state.search.path.path.length then return (found_cycle, state)
    else do
      let next_arrivals ← Search.ofExcept (extend_bundle graph window_end arrivals edge)
      if next_arrivals = [] then return (found_cycle, state)
      else do
        let (found, state) ← dfs graph cap root window_end fuel edge.vertex next_arrivals
          { state with search := state.search.push edge.vertex }
        return (found || found_cycle, { state with search := state.search.pop edge.vertex })

-- The count at length `k` for one path that arrives at the top of the stack.
def timed_tally (graph : GraphView) (cap : Option Nat) (root : Nat) (window_end : Int) (fuel : Nat)
    (stack : List Nat) (k : Nat) (time : Int) : Nat :=
  CycleHistogram.tally
    ((timed_closings (event_graph graph) window_end root cap fuel stack time).map timed_event) k

def row_tally (graph : GraphView) (cap : Option Nat) (root : Nat) (window_end : Int) (fuel v : Nat)
    (below : List Nat) (edge : AdjacencyEntry) (k : Nat) (time : Int) : Nat :=
  CycleHistogram.tally
    ((timed_row graph cap root window_end fuel v below time edge).map timed_event) k

theorem timed_tally_row (root : Nat) (window_end : Int) (fuel v : Nat) (below : List Nat) (k : Nat)
    (time : Int) : timed_tally graph cap root window_end (fuel + 1) (v :: below) k time =
      ((graph.outgoing_row v).map fun edge =>
        row_tally graph cap root window_end fuel v below edge k time).sum := by
  rw [timed_tally, timed_closings_row, List.map_flatMap, CycleHistogram.tally_flatMap]
  rfl

def OnPathState (graph : GraphView) (root : Nat) (window_end : Int) (stack : List Nat)
    (result : Bool × TemporalJohnsonState) : Prop :=
  result.2.search.OnStack graph root window_end stack

-- The counts that a call makes of one edge fit.
def EdgeFits (graph : GraphView) (cap : Option Nat) (root : Nat) (window_end : Int)
    (arrivals : TimestampBundle) (path : List Nat) (enter : TimestampBundle → Prop)
    (edge : AdjacencyEntry) : Prop :=
  if edge.vertex = root then ∃ count, closing_count graph window_end arrivals edge = .ok count
  else if edge.vertex ∈ path ∨ cut cap path.length then True
  else ∃ next_arrivals,
    extend_bundle graph window_end arrivals edge = .ok next_arrivals ∧ enter next_arrivals

-- No number of partial paths overflows along the paths that the search follows.
def BundlesFit (graph : GraphView) (cap : Option Nat) (root : Nat) (window_end : Int) :
    Nat → Nat → List Nat → TimestampBundle → Prop
  | 0, _, _, _ => True
  | _ + 1, _, _, [] => True
  | fuel + 1, v, below, earliest :: arrivals =>
      LeadsBack (event_graph graph) window_end root v earliest.timestamp →
        ∀ edge ∈ graph.outgoing_row v, EdgeFits graph cap root window_end (earliest :: arrivals)
          (v :: below) (fun next_arrivals =>
            BundlesFit graph cap root window_end fuel edge.vertex (v :: below) next_arrivals) edge

-- A call adds for every path of the bundle what a call for it alone would.
def AddsBundle (window : Prop) (graph : GraphView) (cap : Option Nat) (root : Nat) (window_end : Int)
    (fuel v : Nat) (below : List Nat) (arrivals : TimestampBundle) : Prop :=
  ∀ state : TemporalJohnsonState, state.search.OnStack graph root window_end (v :: below) →
    (dfs graph cap root window_end fuel v arrivals state).Exact
      (BundlesFit graph cap root window_end fuel v below arrivals) window
      (OnPathState graph root window_end (v :: below))
      fun k => weight (timed_tally graph cap root window_end fuel (v :: below) k) arrivals

-- What an edge back to the root adds.
theorem row_tally_close {root : Nat} {window_end : Int} {fuel v : Nat} {below : List Nat}
    {edge : AdjacencyEntry} (hr : edge.vertex = root) (arrivals : TimestampBundle) (k : Nat) :
    weight (row_tally graph cap root window_end fuel v below edge k) arrivals =
      if length_of_size (v :: below).length = k then
        weight (fun time =>
          ((event_graph graph).later window_end time (edge_events edge)).length) arrivals
      else 0 := by
  have hone : ∀ time, row_tally graph cap root window_end fuel v below edge k time =
      if length_of_size (v :: below).length = k then
        ((event_graph graph).later window_end time (edge_events edge)).length else 0 := by
    intro time
    rw [row_tally, timed_row, if_pos hr]
    by_cases hempty : (event_graph graph).later window_end time (edge_events edge) = []
    · simp [hempty]
    · simp [hempty, timed_event]
  rw [funext hone]
  split_ifs
  · rfl
  · exact weight_zero arrivals

theorem row_tally_skip {root : Nat} {window_end : Int} {fuel v : Nat} {below : List Nat}
    {edge : AdjacencyEntry} (hr : edge.vertex ≠ root)
    (hskip : edge.vertex ∈ v :: below ∨ cut cap (v :: below).length = true)
    (arrivals : TimestampBundle) (k : Nat) :
    weight (row_tally graph cap root window_end fuel v below edge k) arrivals = 0 := by
  refine weight_eq_zero fun entry _ => ?_
  rw [row_tally, timed_row, if_neg hr]
  by_cases hm : edge.vertex ∈ v :: below
  · rw [if_pos hm, ite_self]
    rfl
  · rw [if_neg hm, if_pos (hskip.resolve_left hm), ite_self]
    rfl

theorem row_tally_enter (fuel : Nat) {root : Nat} {window_end : Int} {v : Nat} {below : List Nat}
    {edge : AdjacencyEntry} (hr : edge.vertex ≠ root) (hm : edge.vertex ∉ v :: below)
    (hc : ¬cut cap (v :: below).length = true) {arrivals bundle : TimestampBundle}
    (h : Collects [] (arrivals.flatMap fun arrival =>
      ((event_graph graph).later window_end arrival.timestamp (edge_events edge)).map
        fun offset => (timestamp_at graph.timestamps offset, arrival.count)) bundle) (k : Nat) :
    weight (timed_tally graph cap root window_end fuel (edge.vertex :: v :: below) k) bundle =
      weight (row_tally graph cap root window_end fuel v below edge k) arrivals := by
  rw [weight_collected (fun t => (event_graph graph).later window_end t (edge_events edge))
    (timestamp_at graph.timestamps) h]
  refine weight_congr fun entry _ => ?_
  rw [row_tally, timed_row, if_neg hr, if_neg hm, if_neg hc]
  split_ifs with hempty
  · simp [hempty]
  · rw [List.map_flatMap, CycleHistogram.tally_flatMap]
    rfl

theorem dfs_loop_adds (hw : graph.WellFormed) (arrivals : TimestampBundle) {root : Nat}
    {window_end : Int} {fuel v : Nat} {below : List Nat} {edge : AdjacencyEntry}
    (he : edge ∈ graph.outgoing_row v) (h : OnPath graph root (v :: below))
    (hrows : ∀ u ∈ below, graph.outgoing_row u ≠ []) (hroot : 2 ≤ (v :: below).length)
    (hrec : edge.vertex ∉ v :: below → ∀ bundle, Ascending bundle →
      AddsBundle window graph cap root window_end fuel edge.vertex (v :: below) bundle)
    (result : Bool × TemporalJohnsonState)
    (hresult : OnPathState graph root window_end (v :: below) result) :
    (dfs_loop graph cap root window_end fuel arrivals result edge).Exact
      (EdgeFits graph cap root window_end arrivals (v :: below)
        (BundlesFit graph cap root window_end fuel edge.vertex (v :: below)) edge) window
      (OnPathState graph root window_end (v :: below))
      fun k => weight (row_tally graph cap root window_end fuel v below edge k) arrivals := by
  obtain ⟨found_cycle, state⟩ := result
  have hpath : state.search.path.path = v :: below := by
    rw [hresult.1]
    rfl
  have hvisited : state.search.path.visited edge.vertex = true ↔ edge.vertex ∈ v :: below := by
    rw [hresult.1]
    simp [PathState.at]
  rw [dfs_loop, hpath, EdgeFits]
  by_cases hr : edge.vertex = root
  · have hclosed : edge.vertex = root ∧ 2 ≤ (v :: below).length := ⟨hr, hroot⟩
    rw [if_pos hr, if_pos hclosed]
    refine Search.Exact.value (closing_count_gives hw.slices he window_end arrivals) fun count hcount => ?_
    by_cases hzero : count = 0
    · rw [if_pos hzero]
      refine (Search.exact_pure hresult).congr Iff.rfl fun k => ?_
      rw [row_tally_close hr, ← hcount, hzero, ite_self]
    · rw [if_neg hzero]
      have hlen : length_of_size (v :: below).length = (v :: below).length :=
        length_of_size_eq (hw.narrow _ h.nodup fun u hu => by
          rcases List.mem_cons.mp hu with rfl | hu
          · exact List.ne_nil_of_mem he
          · exact hrows u hu)
      have hclose : Search.Emits (do
          Search.increment (length_of_size (v :: below).length) count
          return (true, state)) (true, state) [(length_of_size (v :: below).length, count)] :=
        (Search.emits_increment _ count).then (Search.emits_pure _)
      refine (hclose.exact hresult ?_).congr Iff.rfl fun k => ?_
      · intro event hevent
        obtain rfl := List.mem_singleton.mp hevent
        exact hroot.trans_eq hlen.symm
      · rw [row_tally_close hr, ← hcount]
        simp
  have hopen : ¬(edge.vertex = root ∧ 2 ≤ (v :: below).length) := fun hc => hr hc.1
  rw [if_neg hr, if_neg hopen]
  by_cases hm : edge.vertex ∈ v :: below
  · rw [if_pos (hvisited.mpr hm), if_pos (Or.inl hm)]
    exact (Search.exact_pure hresult).congr Iff.rfl fun k =>
      (row_tally_skip hr (Or.inl hm) arrivals k).symm
  rw [if_neg fun hv => hm (hvisited.mp hv)]
  by_cases hc : cut cap (v :: below).length = true
  · rw [if_pos hc, if_pos (Or.inr hc)]
    exact (Search.exact_pure hresult).congr Iff.rfl fun k =>
      (row_tally_skip hr (Or.inr hc) arrivals k).symm
  rw [if_neg hc, if_neg (not_or.mpr ⟨hm, hc⟩)]
  refine Search.Exact.gives (extend_bundle_gives hw.slices he window_end arrivals) fun bundle hb => ?_
  have hnumber := row_tally_enter fuel hr hm hc hb
  by_cases hempty : bundle = []
  · rw [if_pos hempty, hempty]
    refine (Search.exact_pure hresult).congr ?_ fun k => ?_
    · cases fuel <;> simp [BundlesFit]
    · rw [← hnumber k, hempty]
      rfl
  rw [if_neg hempty]
  refine Search.Exact.congr (Search.Exact.then (hrec hm bundle hb.ascending
    { state with search := state.search.push edge.vertex } (hresult.push edge.vertex)) ?_) Iff.rfl
    hnumber
  rintro ⟨found, state'⟩ hs
  exact Search.exact_pure (hs.pop hm)

-- The earliest arrival prunes for the whole bundle, since later ones lead nowhere
-- either.
theorem weight_pruned {root : Nat} {window_end : Int} {fuel v : Nat} {below : List Nat}
    {earliest : TimestampCount} {arrivals : TimestampBundle} (hn : (v :: below).Nodup)
    (hsorted : Ascending (earliest :: arrivals))
    (h : ¬LeadsBack (event_graph graph) window_end root v earliest.timestamp) (k : Nat) :
    weight (timed_tally graph cap root window_end fuel (v :: below) k) (earliest :: arrivals) = 0 := by
  have hnone : ∀ entry ∈ earliest :: arrivals,
      timed_tally graph cap root window_end fuel (v :: below) k entry.timestamp = 0 := by
    intro entry he
    have hle : earliest.timestamp ≤ entry.timestamp := by
      rcases List.mem_cons.mp he with rfl | he
      · exact Int.le_refl _
      · exact Int.le_of_lt (List.rel_of_pairwise_cons hsorted he)
    rw [timed_tally, timed_closings_eq_nil hn fun hl => h (hl.earlier hle)]
    rfl
  exact weight_eq_zero hnone

theorem dfs_adds (cap : Option Nat) (hw : graph.WellFormed) (root : Nat) (window_end : Int)
    (fuel : Nat) (v : Nat) (below : List Nat) (arrivals : TimestampBundle)
    (hsorted : Ascending arrivals) (h : OnPath graph root (v :: below))
    (hrows : ∀ u ∈ below, graph.outgoing_row u ≠ [])
    (hfuel : graph.vertex_count < (v :: below).length + fuel) (hroot : 2 ≤ (v :: below).length) :
    AddsBundle window graph cap root window_end fuel v below arrivals := by
  induction fuel generalizing v below arrivals with
  | zero => have := h.length_le; omega
  | succ fuel ih =>
      rintro ⟨search, stats⟩ hstate
      cases arrivals with
      | nil => exact Search.exact_pure hstate
      | cons earliest arrivals =>
          obtain ⟨reached, closing_after, hreach, hstate, hiff⟩ :=
            can_reach_root_emits hw.slices root window_end v earliest.timestamp hstate
          refine hreach.exact_then ?_
          cases reached with
          | false =>
              have hno : ¬LeadsBack (event_graph graph) window_end root v earliest.timestamp := by
                simpa using hiff
              have hfits : BundlesFit graph cap root window_end (fuel + 1) v below
                  (earliest :: arrivals) := fun hl => absurd hl hno
              refine (Search.exact_pure ?_).congr (iff_of_true trivial hfits) fun k =>
                (weight_pruned h.nodup hsorted hno k).symm
              exact hstate
          | true =>
              have hback : LeadsBack (event_graph graph) window_end root v earliest.timestamp := by
                simpa using hiff
              have hloop := fun edge he =>
                dfs_loop_adds hw (earliest :: arrivals) he h hrows hroot fun hm bundle hb =>
                ih edge.vertex (v :: below) bundle hb
                  (h.push hm (List.mem_range.mpr (hw.bounded v edge he).2)) (fun u hu => by
                    rcases List.mem_cons.mp hu with rfl | hu
                    · exact List.ne_nil_of_mem he
                    · exact hrows u hu)
                  (by simp only [List.length_cons] at hfuel ⊢; omega) (by simp)
              refine Search.Exact.congr (Search.Exact.foldlM hloop _ ?_) ?_ fun k => ?_
              · exact hstate
              · exact ⟨fun hedges _ => hedges, fun hedges => hedges hback⟩
              · rw [← weight_sum]
                exact weight_congr fun entry _ => (timed_tally_row root window_end fuel v below k _).symm

theorem start_counts_time {edge : AdjacencyEntry} {counts : TimestampBundle}
    (h : Collects [] ((edge_events edge).map fun offset => (timestamp_at graph.timestamps offset, 1))
      counts) {bundle : TimestampCount} (hb : bundle ∈ counts) :
    bundle.timestamp ∈ (edge_events edge).map (timestamp_at graph.timestamps) := by
  have hm := ((h.times bundle.timestamp).mp (List.mem_map_of_mem hb)).resolve_left (by simp)
  rwa [List.map_map] at hm

-- The count at length `k` for one start event.
def start_tally (graph : GraphView) (width : Int) (cap : Option Nat) (root first k : Nat)
    (time : Int) : Nat :=
  timed_tally graph cap root (time + width) graph.vertex_count [first, root] k time

def StartFits (graph : GraphView) (width : Int) (cap : Option Nat) (root first : Nat)
    (bundle : TimestampCount) : Prop :=
  bundle.timestamp ≤ MAX_TIMESTAMP - width ∧
    BundlesFit graph cap root (bundle.timestamp + width) graph.vertex_count first [root] [bundle]

-- No window and no number of partial paths overflows in the search from any root.
def PathsFit (graph : GraphView) (width : Int) (cap : Option Nat) : Prop :=
  ∀ root ∈ List.range graph.vertex_count, ∀ edge ∈ graph.outgoing_row root, ∃ counts,
    start_counts graph edge = .ok counts ∧
      ∀ bundle ∈ counts, StartFits graph width cap root edge.vertex bundle

theorem start_adds (cap : Option Nat) (hw : graph.WellFormed) (h0 : 0 ≤ width) {root : Nat}
    {edge : AdjacencyEntry} (hr : root < graph.vertex_count) (he : edge ∈ graph.outgoing_row root)
    (stats : TemporalJohnsonStats) (bundle : TimestampCount)
    (hb : bundle.timestamp ∈ (edge_events edge).map (timestamp_at graph.timestamps)) :
    (start graph width cap root edge.vertex stats bundle).Exact
      (StartFits graph width cap root edge.vertex bundle) (¬NoWindowOverflow graph width)
      (fun _ => True)
      fun k => bundle.count * start_tally graph width cap root edge.vertex k bundle.timestamp := by
  by_cases hle : bundle.timestamp ≤ MAX_TIMESTAMP - width
  · have hpath : OnPath graph root [edge.vertex, root] :=
      (on_path_root hr).push (by simpa using hw.no_loop root edge he)
        (List.mem_range.mpr (hw.bounded root edge he).2)
    have hbundle : AddsBundle (¬NoWindowOverflow graph width) graph cap root
        (bundle.timestamp + width) graph.vertex_count edge.vertex [root] [bundle] :=
      dfs_adds cap hw root _ _ _ _ _ (List.pairwise_singleton _ _) hpath
        (by simpa using List.ne_nil_of_mem he) (by simp) (by simp)
    have hcall := hbundle ⟨TimedState.start root edge.vertex, stats⟩
      (TimedState.on_stack_start graph root edge.vertex _)
    refine (Search.emits_ofExcept (checked_window_end_ok h0 hle)).exact_then ?_
    exact (hcall.then fun _ _ => Search.exact_pure trivial).congr (and_iff_right hle).symm
      fun _ => rfl
  · obtain ⟨offset, ho, ht⟩ := List.mem_map.mp hb
    rw [edge_events, List.mem_range'_1] at ho
    have hs : (⟨root, edge, offset⟩ : Start) ∈ starts graph :=
      mem_starts.mpr ⟨hr, he, ho.1, by dsimp only; omega⟩
    have hover : ¬NoWindowOverflow graph width := fun hno => hle (ht ▸ hno _ hs)
    exact ⟨fun hfits => absurd hfits.1 hle, fun _ => (Search.overflows_ofExcept
      (checked_window_end_overflow h0 (by omega)) (Or.inr hover)).bind⟩

-- The bundled start events of an edge count what its timestamps do one by one.
theorem start_edge_adds (cap : Option Nat) (hw : graph.WellFormed) (h0 : 0 ≤ width) {root : Nat}
    {edge : AdjacencyEntry} (hr : root < graph.vertex_count) (he : edge ∈ graph.outgoing_row root)
    (stats : TemporalJohnsonStats) :
    Search.Exact (∃ counts, start_counts graph edge = .ok counts ∧
        ∀ bundle ∈ counts, StartFits graph width cap root edge.vertex bundle)
      (¬NoWindowOverflow graph width) (do
        let counts ← Search.ofExcept (start_counts graph edge)
        counts.foldlM (start graph width cap root edge.vertex) stats) (fun _ => True)
      fun k => ((edge_events edge).map fun offset =>
        start_tally graph width cap root edge.vertex k (timestamp_at graph.timestamps offset)).sum := by
  refine Search.Exact.gives (start_counts_gives graph edge) fun counts hc => ?_
  refine (Search.Exact.foldlM (fun bundle hb stats _ =>
    start_adds cap hw h0 hr he stats bundle (start_counts_time hc hb)) stats trivial).congr Iff.rfl
      fun k => ?_
  have hsum := hc.weight_eq (start_tally graph width cap root edge.vertex k)
  rw [weight_nil, Nat.zero_add, List.map_map] at hsum
  simp only [Function.comp_def, Nat.one_mul] at hsum
  exact hsum

theorem run_adds (cap : Option Nat) (hw : graph.WellFormed) (h0 : 0 ≤ width) :
    (run graph width cap).Exact (PathsFit graph width cap) (¬NoWindowOverflow graph width)
      (fun _ => True) (CycleHistogram.tally (temporal_events graph width cap)) := by
  rw [run, for_each_root_eq hw.counted]
  refine (Search.Exact.foldlM (fun root hr stats _ => Search.Exact.foldlM (fun edge he stats _ =>
    start_edge_adds cap hw h0 (List.mem_range.mp hr) he stats) stats trivial) _ trivial).congr
      Iff.rfl fun k => ?_
  simp only [temporal_events, starts, List.flatMap_assoc, List.flatMap_map,
    CycleHistogram.tally_flatMap]
  rfl

-- Every start event is in a bundle of its edge.
theorem PathsFit.no_window_overflow (h : PathsFit graph width cap) :
    NoWindowOverflow graph width := by
  intro start hs
  obtain ⟨hr, he, hlow, hhigh⟩ := mem_starts.mp hs
  obtain ⟨counts, hok, hfits⟩ := h start.root (List.mem_range.mpr hr) start.edge he
  have hc : Collects [] ((edge_events start.edge).map fun offset =>
      (timestamp_at graph.timestamps offset, 1)) counts := by
    rcases start_counts_gives graph start.edge with ⟨what, -, herror⟩ | ⟨other, hother, hc⟩
    · cases hok.symm.trans herror
    · obtain rfl := Except.ok.inj (hok.symm.trans hother)
      exact hc
  have hoffset : start.offset ∈ edge_events start.edge := by
    rw [edge_events, List.mem_range'_1]
    omega
  obtain ⟨bundle, hb, ht⟩ := List.mem_map.mp ((hc.times (start.time graph)).mpr (Or.inr
    (List.mem_map.mpr ⟨_, List.mem_map_of_mem hoffset, rfl⟩)))
  exact ht ▸ (hfits bundle hb).1

end TemporalJohnsonSearch

theorem count_temporal_cycles_johnson_run (h0 : 0 ≤ width) (hmax : width ≤ MAX_TIMESTAMP)
    (hcap : ∀ limit ∈ cap, 2 ≤ limit) :
    count_temporal_cycles_johnson graph width cap =
      (TemporalJohnsonSearch.run graph width cap ∅).map (·.2) := by
  rw [count_temporal_cycles_johnson, count_temporal_cycles_johnson_with_stats,
    validate_max_cycle_length_ok hcap, checked_window_end_zero h0 hmax]
  change ((TemporalJohnsonSearch.run graph width cap ∅).bind _).bind _ = _
  cases TemporalJohnsonSearch.run graph width cap ∅ <;> rfl

-- The bundled counts are those of the oracle unless one of them overflows.
theorem count_temporal_cycles_johnson_gives (hw : graph.WellFormed) (h0 : 0 ≤ width)
    (hmax : width ≤ MAX_TIMESTAMP) (hno : NoWindowOverflow graph width)
    (hcap : ∀ limit ∈ cap, 2 ≤ limit) :
    (∃ what, CountOverflow what ∧
      count_temporal_cycles_johnson graph width cap = .error (.overflow_error what)) ∨
      count_temporal_cycles_johnson graph width cap =
        (∅ : CycleHistogram).record (temporal_events graph width cap) := by
  rw [count_temporal_cycles_johnson_run h0 hmax hcap]
  have hrun := TemporalJohnsonSearch.run_adds cap hw h0
  by_cases hfits : TemporalJohnsonSearch.PathsFit graph width cap
  · obtain ⟨stats, events, -, he, hl, ht⟩ := hrun.ends hfits
    refine Or.inr ?_
    rw [he ∅, ← CycleHistogram.record_congr hl (temporal_events_two_le hw) ht]
    cases (∅ : CycleHistogram).record events <;> rfl
  · obtain ⟨what, hcount, hw⟩ := hrun.stops hfits ∅
    exact Or.inl ⟨what, hcount.resolve_right (not_not_intro hno), by rw [hw]; rfl⟩

-- It ends well exactly where all numbers fit.
theorem count_temporal_cycles_johnson_ok_iff (hw : graph.WellFormed) (h0 : 0 ≤ width)
    (hmax : width ≤ MAX_TIMESTAMP) (hcap : ∀ limit ∈ cap, 2 ≤ limit) :
    (∃ histogram, count_temporal_cycles_johnson graph width cap = .ok histogram) ↔
      TemporalJohnsonSearch.PathsFit graph width cap ∧ ∃ histogram,
        (∅ : CycleHistogram).record (temporal_events graph width cap) = .ok histogram := by
  rw [count_temporal_cycles_johnson_run h0 hmax hcap]
  have hrun := TemporalJohnsonSearch.run_adds cap hw h0
  by_cases hfits : TemporalJohnsonSearch.PathsFit graph width cap
  · obtain ⟨stats, events, -, he, hl, ht⟩ := hrun.ends hfits
    rw [he ∅, ← CycleHistogram.record_congr hl (temporal_events_two_le hw) ht]
    cases (∅ : CycleHistogram).record events with
    | error error => simp [Except.map]
    | ok histogram => simp [Except.map, hfits]
  · obtain ⟨what, -, hstop⟩ := hrun.stops hfits ∅
    rw [hstop]
    simp [Except.map, hfits]

end CycleEnum.Sequential
