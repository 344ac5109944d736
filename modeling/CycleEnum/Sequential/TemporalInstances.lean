import CycleEnum.Sequential.TemporalClosings
import CycleEnum.Enumeration.Completions
import CycleEnum.Enumeration.CycleLists
import Mathlib.Data.List.Rotate
import Mathlib.Data.Set.Card

namespace CycleEnum.Sequential

open Enumeration

-- Some edge from `u` to `v` has a timestamp at this offset.
def is_event (graph : GraphView) (u v offset : Nat) : Prop :=
  ∃ edge ∈ graph.outgoing_entries u, edge.vertex = v ∧ edge.timestamp_begin ≤ offset ∧
    offset < edge.timestamp_end

-- Distinct vertices with one timestamp event for each edge from one to the next and
-- from the last to the first. The timestamps increase and lie within the width.
structure TemporalCycle (graph : GraphView) (width : Int) (vertices events : List Nat) : Prop where
  nodup : vertices.Nodup
  on_edges : List.Forall₂ (fun edge event => is_event graph edge.1 edge.2 event)
    (vertices.zip (vertices.rotate 1)) events
  increasing : events.Pairwise fun a b =>
    timestamp_at graph.timestamps a < timestamp_at graph.timestamps b
  window : ∀ first ∈ events.head?, ∀ last ∈ events.getLast?,
    timestamp_at graph.timestamps last - timestamp_at graph.timestamps first ≤ width

def temporal_cycles (graph : GraphView) (width : Int) (k : Nat) : Set (List Nat × List Nat) :=
  {cycle | cycle.1.length = k ∧ TemporalCycle graph width cycle.1 cycle.2}

-- The instances of `k` vertices that begin with one start event.
def start_instances (graph : GraphView) (width : Int) (cap : Option Nat) (k : Nat) (start : Start) :
    List (List Nat × List Nat) :=
  ((completions (event_graph graph) (start.time graph + width) start.root cap graph.vertex_count
    [start.edge.vertex, start.root] start.offset).filter fun rest => rest.1.length + 2 = k).map
      fun rest => (start.root :: start.edge.vertex :: rest.1, start.offset :: rest.2)

variable {graph : GraphView} {cap : Option Nat} {width : Int}

theorem isEvent_iff (hw : graph.WellFormed) {u v offset : Nat} :
    IsEvent (event_graph graph) u v offset ↔ is_event graph u v offset := by
  rw [IsEvent, is_event, event_graph_arcs, ← hw.whole]
  simp only [List.mem_map, Prod.mk.injEq]
  constructor
  · rintro ⟨events, ⟨edge, he, rfl, rfl⟩, hm⟩
    rw [edge_events, List.mem_range'_1] at hm
    exact ⟨edge, he, rfl, by omega, by omega⟩
  · rintro ⟨edge, he, rfl, h₁, h₂⟩
    exact ⟨edge_events edge, ⟨edge, he, rfl, rfl⟩, by rw [edge_events, List.mem_range'_1]; omega⟩

theorem event_graph_simple (hw : graph.WellFormed) : (event_graph graph).Simple where
  targets v := by
    rw [event_graph_arcs, List.map_map]
    exact List.pairwise_map.mpr ((hw.ascending v).imp fun h => Nat.ne_of_lt h)
  events v arc harc := by
    rw [event_graph_arcs] at harc
    obtain ⟨edge, -, rfl⟩ := List.mem_map.mp harc
    exact List.nodup_range'

-- The closings of a stack counted by their events.
theorem tally_timed_closings {V E : Type} [DecidableEq V] (g : EventGraph V E) (window_end : Int)
    (root : V) (cap : Option Nat) (fuel : Nat) (stack : List V) (last : E) (k : Nat) :
    CycleHistogram.tally ((timed_closings g window_end root cap fuel stack (g.time last)).map
        fun closed => (closed.1.length, closed.2)) k =
      (completions g window_end root cap fuel stack last).countP
        fun rest => rest.1.length + stack.length = k := by
  induction fuel generalizing stack last with
  | zero => rfl
  | succ fuel ih =>
      cases stack with
      | nil => rfl
      | cons current below =>
          rw [timed_closings, completions, List.map_flatMap, CycleHistogram.tally_flatMap,
            List.countP_flatMap]
          congr 1
          refine List.map_congr_left fun arc _ => ?_
          simp only [Function.comp_apply]
          by_cases hempty : g.later window_end (g.time last) arc.2 = []
          · simp [hempty]
          rw [if_neg hempty]
          by_cases hr : arc.1 = root
          · rw [if_pos hr, if_pos hr, List.countP_map]
            by_cases hk : (current :: below).length = k
            · rw [List.countP_eq_length.mpr fun event _ => by simpa using hk]
              simp [hk]
            · rw [List.countP_eq_zero.mpr fun event _ => by simpa using hk]
              simp only [List.map_cons, List.map_nil, CycleHistogram.tally_cons, if_neg hk,
                CycleHistogram.tally_nil]
          rw [if_neg hr, if_neg hr]
          by_cases hm : arc.1 ∈ current :: below
          · rw [if_pos hm, if_pos hm]
            rfl
          rw [if_neg hm, if_neg hm]
          by_cases hc : cut cap (current :: below).length = true
          · rw [if_pos hc, if_pos hc]
            rfl
          rw [if_neg hc, if_neg hc, List.map_flatMap, CycleHistogram.tally_flatMap,
            List.countP_flatMap]
          congr 1
          refine List.map_congr_left fun event _ => ?_
          rw [ih, Function.comp_apply, List.countP_map]
          refine List.countP_congr fun rest _ => ?_
          simp only [List.length_cons, Function.comp_apply, decide_eq_true_eq]
          omega

theorem temporal_tally (hw : graph.WellFormed) (k : Nat) :
    CycleHistogram.tally (temporal_events graph width cap) k =
      ((starts graph).flatMap (start_instances graph width cap k)).length := by
  rw [temporal_events, CycleHistogram.tally_flatMap, List.length_flatMap]
  congr 1
  refine List.map_congr_left fun start hs => ?_
  have hevents : (temporal_closings graph width cap start).map timed_event =
      (temporal_closings graph width cap start).map fun closed => (closed.1.length, closed.2) :=
    List.map_congr_left fun closed hc => (timed_event_eq hw hs hc).1
  rw [hevents, start_instances, List.length_map, ← List.countP_eq_length_filter]
  exact tally_timed_closings (event_graph graph) (start.time graph + width) start.root cap
    graph.vertex_count [start.edge.vertex, start.root] start.offset k

theorem TemporalCycle.later_within {vertices more : List Nat} {event : Nat}
    (h : TemporalCycle graph width vertices (event :: more)) :
    ∀ later ∈ more, timestamp_at graph.timestamps event < timestamp_at graph.timestamps later ∧
      timestamp_at graph.timestamps later ≤ timestamp_at graph.timestamps event + width := by
  intro later hlater
  refine ⟨(List.pairwise_cons.mp h.increasing).1 later hlater, ?_⟩
  have hmem := List.mem_cons_of_mem event hlater
  have hlast := h.window event rfl _ (List.getLast?_eq_some_getLast (by simp))
  have hle := (h.increasing.imp Int.le_of_lt).rel_getLast_of_rel_getLast_getLast hmem
    (Int.le_refl _)
  omega

theorem temporal_cycle_iff (hw : graph.WellFormed) (h0 : 0 ≤ width) (root first event : Nat)
    (rest events : List Nat) :
    TemporalCycle graph width (root :: first :: rest) (event :: events) ↔
      (root :: first :: rest).Nodup ∧ is_event graph root first event ∧
        Completes (event_graph graph) (timestamp_at graph.timestamps event + width) root first event
          rest events := by
  have hrotate : (root :: first :: rest).rotate 1 = first :: (rest ++ [root]) := by simp
  have hedges : List.Forall₂ (fun edge event => is_event graph edge.1 edge.2 event)
        ((root :: first :: rest).zip ((root :: first :: rest).rotate 1)) (event :: events) ↔
      is_event graph root first event ∧
        List.Forall₂ (fun arc event => IsEvent (event_graph graph) arc.1 arc.2 event)
          ((first :: rest).zip (rest ++ [root])) events := by
    simp only [hrotate, List.zip_cons_cons, List.forall₂_cons, isEvent_iff hw]
  have hwindow (h : ∀ later ∈ events, timestamp_at graph.timestamps later ≤
        timestamp_at graph.timestamps event + width) :
      ∀ first ∈ (event :: events).head?, ∀ last ∈ (event :: events).getLast?,
        timestamp_at graph.timestamps last - timestamp_at graph.timestamps first ≤ width := by
    intro first' hfirst last hlast
    obtain rfl := Option.some.inj hfirst
    rcases List.mem_cons.mp (List.mem_of_getLast? hlast) with rfl | hlast
    · omega
    · have := h last hlast
      omega
  rw [completes_iff_forall₂]
  constructor
  · intro h
    obtain ⟨hfirst, hrest⟩ := hedges.mp h.on_edges
    exact ⟨h.nodup, hfirst, hrest, h.increasing, fun later hl => (h.later_within later hl).2⟩
  · rintro ⟨hn, hfirst, hrest, hsorted, hend⟩
    exact ⟨hn, hedges.mpr ⟨hfirst, hrest⟩, hsorted, hwindow hend⟩

-- The instances of `k` vertices that the search counts.
def instances (graph : GraphView) (width : Int) (cap : Option Nat) (k : Nat) :
    List (List Nat × List Nat) :=
  (starts graph).flatMap (start_instances graph width cap k)

theorem mem_start_instances {k : Nat} {start : Start} {vertices events : List Nat} :
    (vertices, events) ∈ start_instances graph width cap k start ↔
      ∃ rest more, vertices = start.root :: start.edge.vertex :: rest ∧
        events = start.offset :: more ∧ rest.length + 2 = k ∧
        (rest, more) ∈ completions (event_graph graph) (start.time graph + width) start.root cap
          graph.vertex_count [start.edge.vertex, start.root] start.offset := by
  simp only [start_instances, List.mem_map, List.mem_filter, decide_eq_true_eq, Prod.mk.injEq,
    Prod.exists]
  constructor
  · rintro ⟨rest, more, ⟨hm, hk⟩, rfl, rfl⟩
    exact ⟨rest, more, rfl, rfl, hk, hm⟩
  · rintro ⟨rest, more, rfl, rfl, hk, hm⟩
    exact ⟨rest, more, ⟨hm, hk⟩, rfl, rfl⟩

theorem temporal_cycle_of_mem_instances (hw : graph.WellFormed) (h0 : 0 ≤ width)
    (hcap : ∀ limit ∈ cap, 2 ≤ limit) {k : Nat} {vertices events : List Nat}
    (h : (vertices, events) ∈ instances graph width cap k) :
    vertices.length = k ∧ TemporalCycle graph width vertices events ∧ ∀ limit ∈ cap, k ≤ limit := by
  obtain ⟨start, hs, h⟩ := List.mem_flatMap.mp h
  obtain ⟨rest, more, rfl, rfl, hk, hm⟩ := mem_start_instances.mp h
  obtain ⟨-, he, hoffset⟩ := mem_starts.mp hs
  obtain ⟨hcompletes, hn, hle⟩ := completes_of_mem_completions graph.vertex_count _ [start.root] _
    (on_path_start hw hs).nodup hm
  have hnodup : (start.root :: start.edge.vertex :: rest).Nodup := by
    rw [← List.nodup_reverse]
    simpa using hn
  refine ⟨by simpa using hk, (temporal_cycle_iff hw h0 _ _ _ _ _).mpr
    ⟨hnodup, ⟨start.edge, hw.whole _ ▸ he, rfl, hoffset⟩, hcompletes⟩, fun limit hl => ?_⟩
  rcases hle with rfl | hle
  · have := hcap limit hl
    simp only [List.length_nil] at hk
    omega
  · have := hle limit hl
    simp only [List.length_append, List.length_reverse, List.length_cons, List.length_nil] at this
    omega

theorem TemporalCycle.vertices_ne_nil {vertices events : List Nat}
    (h : TemporalCycle graph width vertices events) (hk : 2 ≤ vertices.length) :
    ∃ root first rest event more, vertices = root :: first :: rest ∧ events = event :: more := by
  match vertices, events, h.on_edges, hk with
  | root :: first :: rest, event :: more, _, _ => exact ⟨root, first, rest, event, more, rfl, rfl⟩
  | root :: first :: rest, [], hedges, _ => simp at hedges

theorem mem_instances_of_temporal_cycle (hw : graph.WellFormed) (h0 : 0 ≤ width)
    {vertices events : List Nat} (hk : 2 ≤ vertices.length)
    (h : TemporalCycle graph width vertices events) (hle : ∀ limit ∈ cap, vertices.length ≤ limit) :
    (vertices, events) ∈ instances graph width cap vertices.length := by
  obtain ⟨root, first, rest, event, more, rfl, rfl⟩ := h.vertices_ne_nil hk
  obtain ⟨hn, ⟨edge, he, rfl, hoffset⟩, hcompletes⟩ := (temporal_cycle_iff hw h0 _ _ _ _ _).mp h
  rw [← hw.whole] at he
  have hrows : ∀ v ∈ root :: edge.vertex :: rest, graph.outgoing_row v ≠ [] := by
    intro v hv
    rcases List.mem_cons.mp hv with rfl | hv
    · exact List.ne_nil_of_mem he
    · intro hnil
      exact hcompletes.arcs_ne_nil v hv (by rw [event_graph_arcs, hnil]; rfl)
  have hlen := length_le_of_outgoing_row hw hn hrows
  have hrev : (rest.reverse ++ [edge.vertex, root]).Nodup := by
    rw [← List.nodup_reverse] at hn
    simpa using hn
  have hs : (⟨root, edge, event⟩ : Start) ∈ starts graph :=
    mem_starts.mpr ⟨(hw.bounded root edge he).1, he, hoffset⟩
  refine List.mem_flatMap.mpr ⟨_, hs, mem_start_instances.mpr ⟨rest, more, rfl, rfl, rfl, ?_⟩⟩
  refine mem_completions_of_completes graph.vertex_count edge.vertex [root] event (by simp) ?_
    hcompletes hrev (Or.inr fun limit hl => ?_)
  · simp only [List.length_cons] at hlen
    omega
  · have := hle limit hl
    simp only [List.length_append, List.length_reverse, List.length_cons, List.length_nil]
      at this ⊢
    omega

theorem instances_nodup (hw : graph.WellFormed) (k : Nat) :
    (instances graph width cap k).Nodup := by
  refine List.nodup_flatMap.mpr ⟨fun start _ => ?_, ?_⟩
  · refine ((completions_nodup (event_graph_simple hw) _ _ _).filter _).map fun a b h => ?_
    obtain ⟨h₁, h₂⟩ := Prod.mk.inj h
    exact Prod.ext (List.cons.inj (List.cons.inj h₁).2).2 (List.cons.inj h₂).2
  · -- The root, the first edge and its event can be read off an instance.
    refine (starts_nodup hw).imp_of_mem fun {a b} ha hb hne cycle hca hcb => hne ?_
    obtain ⟨_, _, hv, he, -⟩ := mem_start_instances.mp hca
    obtain ⟨_, _, hv', he', -⟩ := mem_start_instances.mp hcb
    obtain ⟨hroot, hv⟩ := List.cons.inj (hv.symm.trans hv')
    have hoffset := (List.cons.inj (he.symm.trans he')).1
    have hedge := edge_eq hw (mem_starts.mp ha).2.1 (hroot ▸ (mem_starts.mp hb).2.1)
      (List.cons.inj hv).1
    cases a
    cases b
    simp_all

theorem temporal_tally_eq (hw : graph.WellFormed) (h0 : 0 ≤ width)
    (hcap : ∀ limit ∈ cap, 2 ≤ limit) {k : Nat} (hk : 2 ≤ k) (hle : ∀ limit ∈ cap, k ≤ limit) :
    CycleHistogram.tally (temporal_events graph width cap) k =
      (temporal_cycles graph width k).ncard := by
  have hmem : ∀ cycle, cycle ∈ temporal_cycles graph width k ↔
      cycle ∈ instances graph width cap k := by
    rintro ⟨vertices, events⟩
    constructor
    · rintro ⟨rfl, hcycle⟩
      exact mem_instances_of_temporal_cycle hw h0 hk hcycle hle
    · intro h
      obtain ⟨hlen, hcycle, -⟩ := temporal_cycle_of_mem_instances hw h0 hcap h
      exact ⟨hlen, hcycle⟩
  rw [temporal_tally hw, ncard_eq_length (instances_nodup hw k) hmem, instances]

theorem temporal_tally_beyond (hw : graph.WellFormed) (h0 : 0 ≤ width)
    (hcap : ∀ limit ∈ cap, 2 ≤ limit) {k : Nat} (hle : ¬∀ limit ∈ cap, k ≤ limit) :
    CycleHistogram.tally (temporal_events graph width cap) k = 0 := by
  rw [temporal_tally hw, List.length_eq_zero_iff, List.eq_nil_iff_forall_not_mem]
  rintro ⟨vertices, events⟩ h
  exact hle (temporal_cycle_of_mem_instances hw h0 hcap h).2.2

end CycleEnum.Sequential
