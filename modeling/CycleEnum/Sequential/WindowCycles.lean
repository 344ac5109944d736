import CycleEnum.Sequential.SimpleCycles
import Mathlib.Data.Finset.Max
import Mathlib.Data.Prod.Lex

namespace CycleEnum.Sequential

open Enumeration

-- Every edge of the graph carries exactly one timestamp.
def SingleTimestamps (graph : GraphView) : Prop :=
  ∀ edge ∈ graph.outgoing_edges, edge.timestamp_end = edge.timestamp_begin + 1

instance (graph : GraphView) : Decidable (SingleTimestamps graph) :=
  inferInstanceAs (Decidable (∀ edge ∈ graph.outgoing_edges, _))

-- The timestamp of the edge from `u` to `v`.
def edge_time (graph : GraphView) (u v : Nat) : Int :=
  ((graph.outgoing_entries u).find? (·.vertex = v)).elim 0 fun edge =>
    timestamp_at graph.timestamps edge.timestamp_begin

-- The simple cycles of `k` vertices whose largest and smallest edge timestamps
-- are at most the width apart.
def window_cycles (graph : GraphView) (width : Int) (k : Nat) : Set (Cycle Nat) :=
  {c | c ∈ simple_cycles graph k ∧ ∀ u v u' v', Follows c u v → Follows c u' v' →
    edge_time graph u v - edge_time graph u' v' ≤ width}

-- The arc on which the search finds a cycle: among the edges with the smallest
-- timestamp the one whose source has the largest id.
def Earliest (graph : GraphView) (c : Cycle Nat) (r : Nat) : Prop :=
  ∃ next, Follows c r next ∧ ∀ u v, Follows c u v → u ≠ r →
    if r > u then edge_time graph r next ≤ edge_time graph u v
    else edge_time graph r next < edge_time graph u v

def window_readings (graph : GraphView) (width : Int) (cap : Option Nat) (k : Nat) :
    List (List Nat) :=
  (starts graph).flatMap fun start =>
    ((window_closings graph width cap start).filter (·.length = k)).map List.reverse

variable {graph : GraphView} {cap : Option Nat} {width : Int}

theorem SingleTimestamps.row (h : SingleTimestamps graph) {v : Nat} {edge : AdjacencyEntry}
    (he : edge ∈ graph.outgoing_row v) : edge.timestamp_end = edge.timestamp_begin + 1 :=
  h edge (List.mem_of_mem_drop (List.mem_of_mem_take he))

theorem window_tally (hw : graph.WellFormed) (k : Nat) :
    CycleHistogram.tally (window_events graph width cap) k =
      (window_readings graph width cap k).length := by
  rw [window_events, CycleHistogram.tally_flatMap, window_readings, List.length_flatMap]
  congr 1
  refine List.map_congr_left fun start hs => ?_
  rw [tally_closings fun c hc => (window_closing_event hw hs hc).1, List.length_map,
    List.countP_eq_length_filter]

theorem edge_time_eq (hw : graph.WellFormed) {u : Nat} {edge : AdjacencyEntry}
    (h : edge ∈ graph.outgoing_row u) :
    edge_time graph u edge.vertex = timestamp_at graph.timestamps edge.timestamp_begin := by
  cases hf : (graph.outgoing_row u).find? (·.vertex = edge.vertex) with
  | none =>
      have := List.find?_eq_none.mp hf edge h
      simp at this
  | some found =>
      have hv : found.vertex = edge.vertex := by simpa using List.find?_some hf
      rw [edge_time, ← hw.whole, hf, edge_eq hw (List.mem_of_find?_eq_some hf) h hv]
      rfl

-- What the windowed search lets through when the edges have one timestamp.
def Windowed (graph : GraphView) (width : Int) (root : Nat) (start : Int) (u v : Nat) : Prop :=
  Arc graph u v ∧
    (if root > u then start ≤ edge_time graph u v else start < edge_time graph u v) ∧
    edge_time graph u v ≤ start + width

theorem mem_window_successors_iff (hw : graph.WellFormed) (hone : SingleTimestamps graph)
    {root u v : Nat} {start : Int} :
    v ∈ window_successors graph width root start u ↔ Windowed graph width root start u v := by
  have hadmits : ∀ edge ∈ graph.outgoing_row u, admitted graph width root start u edge = true ↔
      (if root > u then start ≤ edge_time graph u edge.vertex
        else start < edge_time graph u edge.vertex) ∧
      edge_time graph u edge.vertex ≤ start + width := by
    intro edge he
    have hcount : edge.timestamp_end - edge.timestamp_begin = 1 := by
      have := hone.row he
      omega
    rw [admitted, hcount, edge_time_eq hw he]
    simp only [List.range'_one, List.any_cons, List.any_nil, Bool.or_false]
    split_ifs <;> simp [in_window]
  simp only [window_successors, List.mem_map, List.mem_filter, Windowed, Arc,
    ← hw.whole]
  constructor
  · rintro ⟨edge, ⟨he, ha⟩, rfl⟩
    exact ⟨⟨edge, he, rfl⟩, (hadmits edge he).mp ha⟩
  · rintro ⟨⟨edge, he, rfl⟩, ht⟩
    exact ⟨edge, ⟨he, (hadmits edge he).mpr ht⟩, rfl⟩

theorem start_time_eq (hw : graph.WellFormed) (hone : SingleTimestamps graph) {start : Start}
    (hs : start ∈ starts graph) :
    start.offset = start.edge.timestamp_begin ∧
      start.time graph = edge_time graph start.root start.edge.vertex := by
  obtain ⟨-, he, hlow, hhigh⟩ := mem_starts.mp hs
  have hend := hone.row he
  have hoff : start.offset = start.edge.timestamp_begin := by omega
  exact ⟨hoff, by rw [Start.time, hoff, edge_time_eq hw he]⟩

-- The rest of the cycle is what the search follows exactly when the cycle fits
-- the window and the first arc is its earliest.
theorem window_chain_iff (h0 : 0 ≤ width) {r first k : Nat} {l : List Nat}
    (hn : (r :: first :: l).Nodup) (hlen : (r :: first :: l).length = k) :
    Arc graph r first ∧
      (first :: l ++ [r]).IsChain (Windowed graph width r (edge_time graph r first)) ↔
    (↑(r :: first :: l) : Cycle Nat) ∈ window_cycles graph width k ∧
      Earliest graph ↑(r :: first :: l) r := by
  have hc : 2 ≤ (↑(r :: first :: l) : Cycle Nat).length := by
    rw [Cycle.length_coe]
    simp
  have hfirst : Follows (↑(r :: first :: l) : Cycle Nat) r first := ⟨l, rfl⟩
  have honly : ∀ v, Follows (↑(r :: first :: l) : Cycle Nat) r v → v = first := fun v hf =>
    hf.unique (Cycle.nodup_coe_iff.mpr hn) hfirst
  rw [rooted_chain_iff _ hn]
  constructor
  · rintro ⟨harc, hrest⟩
    have hbound : ∀ u v, Follows (↑(r :: first :: l) : Cycle Nat) u v →
        Arc graph u v ∧ edge_time graph r first ≤ edge_time graph u v ∧
          edge_time graph u v ≤ edge_time graph r first + width := by
      intro u v hf
      by_cases hu : u = r
      · subst hu
        rw [honly v hf]
        exact ⟨harc, Int.le_refl _, by omega⟩
      · obtain ⟨ha, ht, hend⟩ := hrest u v hf hu
        refine ⟨ha, ?_, hend⟩
        split_ifs at ht <;> omega
    refine ⟨⟨⟨hn, hlen, (chain_iff_follows _ _ hc).mpr fun u v hf => (hbound u v hf).1⟩,
      fun u v u' v' hf hf' => ?_⟩, first, hfirst, fun u v hf hne => (hrest u v hf hne).2.1⟩
    have h₁ := (hbound u v hf).2.2
    have h₂ := (hbound u' v' hf').2.1
    omega
  · rintro ⟨⟨⟨-, -, harcs⟩, hspread⟩, next, hnext, hmin⟩
    obtain rfl := honly next hnext
    rw [chain_iff_follows _ _ hc] at harcs
    refine ⟨harcs r next hnext, fun u v hf hne => ⟨harcs u v hf, hmin u v hf hne, ?_⟩⟩
    have := hspread u v r next hf hnext
    omega

-- The readings of one start event: those that begin with its edge.
theorem window_closes_iff (hw : graph.WellFormed) (hone : SingleTimestamps graph) (h0 : 0 ≤ width)
    {start : Start} (hs : start ∈ starts graph) {k : Nat} {l : List Nat}
    (hlen : (start.root :: start.edge.vertex :: l).length = k) :
    Closes (window_successors graph width start.root (start.time graph)) start.root cap
        [start.edge.vertex, start.root] (l.reverse ++ [start.edge.vertex, start.root]) ↔
      ((↑(start.root :: start.edge.vertex :: l) : Cycle Nat) ∈ window_cycles graph width k ∧
        Earliest graph ↑(start.root :: start.edge.vertex :: l) start.root) ∧
      (l = [] ∨ ∀ limit ∈ cap, k ≤ limit) := by
  have hnodup : (l.reverse ++ [start.edge.vertex, start.root]).Nodup ↔
      (start.root :: start.edge.vertex :: l).Nodup := by
    rw [← List.nodup_reverse]
    simp
  have hsize : (l.reverse ++ [start.edge.vertex, start.root]).length = k := by
    rw [← hlen]
    simp
  have harc : Arc graph start.root start.edge.vertex := ⟨start.edge, hw.whole _ ▸ (mem_starts.mp hs).2.1, rfl⟩
  rw [closes_iff_path, hnodup, hsize, List.reverse_reverse, (start_time_eq hw hone hs).2]
  simp only [mem_window_successors_iff hw hone, List.reverse_eq_nil_iff]
  constructor
  · rintro ⟨hn, hchain, hcap⟩
    exact ⟨(window_chain_iff h0 hn hlen).mp ⟨harc, hchain⟩, hcap⟩
  · rintro ⟨hc, hcap⟩
    have hn : (start.root :: start.edge.vertex :: l).Nodup := Cycle.nodup_coe_iff.mp hc.1.1.1
    exact ⟨hn, ((window_chain_iff h0 hn hlen).mpr hc).2, hcap⟩

theorem window_reading (hw : graph.WellFormed) {start : Start} (hs : start ∈ starts graph)
    {l : List Nat} (hl : l ∈ (window_closings graph width cap start).map List.reverse) :
    ∃ rest, l = start.root :: start.edge.vertex :: rest ∧
      Closes (window_successors graph width start.root (start.time graph)) start.root cap
        [start.edge.vertex, start.root] (rest.reverse ++ [start.edge.vertex, start.root]) := by
  obtain ⟨closed, hc, rfl⟩ := List.mem_map.mp hl
  have hcloses := window_closes hw hs hc
  obtain ⟨ext, rfl, -⟩ := hcloses.extends_stack
  exact ⟨ext.reverse, by simp, by simpa using hcloses⟩

theorem mem_window_readings (hw : graph.WellFormed) (hone : SingleTimestamps graph)
    (h0 : 0 ≤ width) {k : Nat} (hk : 2 ≤ k) (hcap : ∀ limit ∈ cap, 2 ≤ limit) (r : Nat)
    (l : List Nat) :
    r :: l ∈ window_readings graph width cap k ↔
      ((↑(r :: l) : Cycle Nat) ∈ window_cycles graph width k ∧ Earliest graph ↑(r :: l) r) ∧
        ∀ limit ∈ cap, k ≤ limit := by
  constructor
  · intro h
    obtain ⟨start, hs, h⟩ := List.mem_flatMap.mp h
    obtain ⟨closed, hc, hrev⟩ := List.mem_map.mp h
    obtain ⟨hc, hsize⟩ := List.mem_filter.mp hc
    obtain ⟨rest, he, hcloses⟩ := window_reading hw hs (List.mem_map.mpr ⟨closed, hc, hrev⟩)
    obtain ⟨rfl, rfl⟩ := List.cons.inj he
    have hlen : (start.root :: start.edge.vertex :: rest).length = k := by
      rw [← hrev, List.length_reverse]
      simpa using hsize
    obtain ⟨hcycle, hle⟩ := (window_closes_iff hw hone h0 hs hlen).mp hcloses
    refine ⟨hcycle, fun limit hl => ?_⟩
    rcases hle with rfl | hle
    · exact hlen ▸ hcap limit hl
    · exact hle limit hl
  · rintro ⟨⟨hcycle, hearliest⟩, hle⟩
    have hlen : (r :: l).length = k := hcycle.1.2.1
    obtain ⟨next, l, rfl⟩ : ∃ next rest, l = next :: rest := by
      cases l with
      | nil => simp at hlen; omega
      | cons next rest => exact ⟨next, rest, rfl⟩
    have hc : 2 ≤ (↑(r :: next :: l) : Cycle Nat).length := by
      rw [Cycle.length_coe]
      simp
    obtain ⟨edge, he, rfl⟩ := (chain_iff_follows _ _ hc).mp hcycle.1.2.2 r next ⟨l, rfl⟩
    rw [← hw.whole] at he
    have hend := hone.row he
    have hs : (⟨r, edge, edge.timestamp_begin⟩ : Start) ∈ starts graph :=
      mem_starts.mpr ⟨(hw.bounded r edge he).1, he, Nat.le_refl _, by dsimp only; omega⟩
    have hcloses := (window_closes_iff hw hone h0 hs hlen).mpr
      ⟨⟨hcycle, hearliest⟩, Or.inr hle⟩
    refine List.mem_flatMap.mpr ⟨_, hs, List.mem_map.mpr ⟨_,
      List.mem_filter.mpr ⟨mem_window_closings hw hs hcloses, ?_⟩, by simp⟩⟩
    simpa using hlen

theorem not_mem_window_readings_nil (hw : graph.WellFormed) {k : Nat} :
    [] ∉ window_readings graph width cap k := by
  intro h
  obtain ⟨start, hs, h⟩ := List.mem_flatMap.mp h
  obtain ⟨closed, hc, hrev⟩ := List.mem_map.mp h
  obtain ⟨rest, he, -⟩ := window_reading hw hs
    (List.mem_map.mpr ⟨closed, (List.mem_filter.mp hc).1, hrev⟩)
  cases he

-- Start events differ in the first two vertices of their readings.
theorem window_readings_nodup (hw : graph.WellFormed) (hone : SingleTimestamps graph) (k : Nat) :
    (window_readings graph width cap k).Nodup := by
  refine List.nodup_flatMap.mpr ⟨fun start hs => ?_, ?_⟩
  · refine List.Nodup.map List.reverse_injective (List.Nodup.filter _ ?_)
    exact closings_nodup (window_successors_nodup hw width start.root (start.time graph)) _ _
      (on_path_start hw hs).nodup (by simp)
  · refine (starts_nodup hw).imp_of_mem fun {start start'} hs hs' hne l hl hl' => hne ?_
    obtain ⟨closed, hc, hrev⟩ := List.mem_map.mp hl
    obtain ⟨closed', hc', hrev'⟩ := List.mem_map.mp hl'
    obtain ⟨rest, rfl, -⟩ := window_reading hw hs
      (List.mem_map.mpr ⟨closed, (List.mem_filter.mp hc).1, hrev⟩)
    obtain ⟨rest', he, -⟩ := window_reading hw hs'
      (List.mem_map.mpr ⟨closed', (List.mem_filter.mp hc').1, hrev'⟩)
    obtain ⟨hroot, he⟩ := List.cons.inj he
    obtain ⟨hvertex, -⟩ := List.cons.inj he
    have hedge : start.edge = start'.edge :=
      edge_eq hw (mem_starts.mp hs).2.1 (hroot ▸ (mem_starts.mp hs').2.1) hvertex
    have hoffset := (start_time_eq hw hone hs).1
    have hoffset' := (start_time_eq hw hone hs').1
    rw [← hedge, ← hoffset] at hoffset'
    cases start
    cases start'
    simp_all

theorem Earliest.mem {c : Cycle Nat} {r : Nat} (h : Earliest graph c r) : r ∈ c := by
  obtain ⟨next, hf, -⟩ := h
  exact hf.mem.1

-- Ties on the smallest timestamp are broken by the id of the source.
theorem Earliest.unique {c : Cycle Nat} {r r' : Nat} (h : Earliest graph c r)
    (h' : Earliest graph c r') : r = r' := by
  obtain ⟨next, hf, hmin⟩ := h
  obtain ⟨next', hf', hmin'⟩ := h'
  by_contra hne
  have h₁ := hmin r' next' hf' (Ne.symm hne)
  have h₂ := hmin' r next hf hne
  split_ifs at h₁ h₂ <;> omega

theorem exists_earliest {c : Cycle Nat} (hn : c.Nodup) (h : 2 ≤ c.length) :
    ∃ r, Earliest graph c r := by
  have hfollower : ∀ u, ∃ v, u ∈ c → Follows c u v := by
    intro u
    by_cases hu : u ∈ c
    · obtain ⟨v, hv⟩ := exists_follower h hu
      exact ⟨v, fun _ => hv⟩
    · exact ⟨u, fun hc => absurd hc hu⟩
  choose next hnext using hfollower
  have hfinset : ∀ u, u ∈ c.toFinset ↔ u ∈ c := by
    intro u
    induction c using Quot.inductionOn with
    | _ l => exact List.mem_toFinset
  obtain ⟨x, hx⟩ := exists_mem_of_length_pos (show 0 < c.length by omega)
  obtain ⟨r, hr, hmin⟩ := c.toFinset.exists_min_image
    (fun u => toLex (edge_time graph u (next u), -(u : Int))) ⟨x, (hfinset x).mpr hx⟩
  have hr : r ∈ c := (hfinset r).mp hr
  refine ⟨r, next r, hnext r hr, fun u v hf hne => ?_⟩
  have hle := hmin u ((hfinset u).mpr hf.mem.1)
  obtain rfl := hf.unique hn (hnext u hf.mem.1)
  rw [Prod.Lex.toLex_le_toLex] at hle
  rcases hle with hlt | ⟨heq, hle⟩
  · split_ifs <;> omega
  · rw [if_pos (by omega)]
    exact Int.le_of_eq heq

theorem window_tally_eq (hw : graph.WellFormed) (hone : SingleTimestamps graph) (h0 : 0 ≤ width)
    (hcap : ∀ limit ∈ cap, 2 ≤ limit) {k : Nat} (hk : 2 ≤ k) (hle : ∀ limit ∈ cap, k ≤ limit) :
    CycleHistogram.tally (window_events graph width cap) k =
      (window_cycles graph width k).ncard := by
  rw [window_tally hw, eq_comm]
  refine ncard_eq_of_readings (window_readings_nodup hw hone k) (fun c hc => hc.1.1)
    (fun c r (h : Earliest graph c r) => h.mem) (fun c hc => exists_earliest hc.1.1 (hc.1.2.1 ▸ hk))
    (fun c _ r r' => Earliest.unique) (fun r l => ?_) (not_mem_window_readings_nil hw)
  rw [mem_window_readings hw hone h0 hk hcap]
  exact and_iff_left hle

theorem window_tally_beyond (hw : graph.WellFormed) (hone : SingleTimestamps graph) (h0 : 0 ≤ width)
    (hcap : ∀ limit ∈ cap, 2 ≤ limit) {k : Nat} (hk : 2 ≤ k) (hle : ¬∀ limit ∈ cap, k ≤ limit) :
    CycleHistogram.tally (window_events graph width cap) k = 0 := by
  rw [window_tally hw, List.length_eq_zero_iff, List.eq_nil_iff_forall_not_mem]
  intro l hl
  cases l with
  | nil => exact not_mem_window_readings_nil hw hl
  | cons r l => exact hle ((mem_window_readings hw hone h0 hk hcap r l).mp hl).2

-- A window as wide as all timestamps takes in every cycle.
theorem window_cycles_eq_of_spread (hw : graph.WellFormed) (hone : SingleTimestamps graph)
    (hspread : ∀ time ∈ graph.timestamps, ∀ time' ∈ graph.timestamps, time - time' ≤ width)
    {k : Nat} (hk : 2 ≤ k) : window_cycles graph width k = simple_cycles graph k := by
  ext c
  refine ⟨And.left, fun hc => ⟨hc, fun u v u' v' hf hf' => ?_⟩⟩
  have harcs := (chain_iff_follows _ _ (hc.2.1 ▸ hk)).mp hc.2.2
  have hmem : ∀ u v, Arc graph u v → edge_time graph u v ∈ graph.timestamps := by
    rintro u v ⟨edge, he, rfl⟩
    rw [← hw.whole] at he
    have hend := hone.row he
    have hle := (hw.slices u edge he).le_length
    rw [edge_time_eq hw he, timestamp_at, List.getD_eq_getElem _ _ (by omega)]
    exact List.getElem_mem _
  exact hspread _ (hmem u v (harcs u v hf)) _ (hmem u' v' (harcs u' v' hf'))

end CycleEnum.Sequential
