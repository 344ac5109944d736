import CycleEnum.Enumeration.CycleLists
import CycleEnum.Sequential.BruteforceClosings

namespace CycleEnum.Sequential

open Enumeration

variable {graph : GraphView} {width : Int} {cap : Option Nat}

-- A start event whose search checks its window end at the first edge that it looks at.
def Start.Overflows (graph : GraphView) (width : Int) (start : Start) : Prop :=
  MAX_TIMESTAMP - width < start.time graph ∧ graph.outgoing_row start.edge.vertex ≠ []

-- The closed paths of a length that a time-window search counts, with their start events.
def window_instances (graph : GraphView) (width : Int) (cap : Option Nat) (k : Nat) :
    Set (Start × List Nat) :=
  {found | found.1 ∈ starts graph ∧
    Closes (window_successors graph width found.1.root (found.1.time graph)) found.1.root cap
      [found.1.edge.vertex, found.1.root] found.2 ∧ found.2.length = k}

-- The same as a list.
def window_found (graph : GraphView) (width : Int) (cap : Option Nat) (k : Nat) :
    List (Start × List Nat) :=
  (starts graph).flatMap fun start =>
    ((window_closings graph width cap start).filter (·.length = k)).map (start, ·)

theorem mem_window_found (hw : graph.WellFormed) {k : Nat} {found : Start × List Nat} :
    found ∈ window_found graph width cap k ↔ found ∈ window_instances graph width cap k := by
  obtain ⟨start, closed⟩ := found
  constructor
  · intro h
    obtain ⟨start', hs, h⟩ := List.mem_flatMap.mp h
    obtain ⟨closed', hc, he⟩ := List.mem_map.mp h
    obtain ⟨rfl, rfl⟩ := Prod.mk.inj he
    obtain ⟨hc, hk⟩ := List.mem_filter.mp hc
    exact ⟨hs, window_closes hw hs hc, by simpa using hk⟩
  · intro h
    obtain ⟨hs, hc, hk⟩ := h
    refine List.mem_flatMap.mpr ⟨start, hs, List.mem_map.mpr ⟨closed, ?_, rfl⟩⟩
    exact List.mem_filter.mpr ⟨mem_window_closings hw hs hc, by simpa using hk⟩

theorem window_found_nodup (hw : graph.WellFormed) (k : Nat) :
    (window_found graph width cap k).Nodup := by
  refine List.nodup_flatMap.mpr ⟨fun start hs => ?_, ?_⟩
  · have hclosings : (window_closings graph width cap start).Nodup :=
      closings_nodup (window_successors_nodup hw width start.root (start.time graph)) _ _
        (on_path_start hw hs).nodup (by simp)
    exact (hclosings.filter _).map fun a b h => (Prod.mk.inj h).2
  · refine (starts_nodup hw).imp fun hne found hf hf' => hne ?_
    obtain ⟨_, _, rfl⟩ := List.mem_map.mp hf
    obtain ⟨_, _, he⟩ := List.mem_map.mp hf'
    exact (Prod.mk.inj he).1.symm

theorem window_instances_ncard (hw : graph.WellFormed) (k : Nat) :
    (window_instances graph width cap k).ncard =
      CycleHistogram.tally (window_events graph width cap) k := by
  rw [ncard_eq_length (window_found_nodup hw k) fun found => (mem_window_found hw).symm,
    window_events, CycleHistogram.tally_flatMap, window_found, List.length_flatMap]
  congr 1
  refine List.map_congr_left fun start hs => ?_
  rw [tally_closings fun c hc => (window_closing_event hw hs hc).1, List.length_map,
    List.countP_eq_length_filter]

section Oracle

variable (hw : graph.WellFormed) (h0 : 0 ≤ width)

include hw h0

-- Where the window end is never checked, or fits, the search emits its closings.
theorem window_start_emits (cap : Option Nat) {start : Start} (hs : start ∈ starts graph)
    (hquiet : ¬start.Overflows graph width) :
    (time_window_dfs graph width cap start.root (start.time graph) graph.vertex_count
      start.edge.vertex (PathState.start start.root start.edge.vertex)).Emits
        (PathState.at [start.edge.vertex, start.root])
        ((window_closings graph width cap start).map closing_event) := by
  rw [PathState.start_eq]
  by_cases hfits : start.time graph ≤ MAX_TIMESTAMP - width
  · exact time_window_dfs_emits cap hw h0 hfits start.root graph.vertex_count start.edge.vertex
      [start.root] (on_path_start hw hs) (by simp) (by simp)
  · have hrow : graph.outgoing_row start.edge.vertex = [] := by
      by_contra hne
      exact hquiet ⟨by omega, hne⟩
    have hpos : 0 < graph.vertex_count := Nat.lt_of_le_of_lt (Nat.zero_le _) (mem_starts.mp hs).1
    obtain ⟨fuel, hfuel⟩ := Nat.exists_eq_add_of_lt hpos
    rw [Nat.zero_add] at hfuel
    rw [window_closings, hfuel, time_window_dfs, closings, window_successors, hrow]
    exact Search.emits_pure _

omit hw in
theorem window_start_overflows (cap : Option Nat) {start : Start} (hs : start ∈ starts graph)
    (hover : start.Overflows graph width) :
    (time_window_dfs graph width cap start.root (start.time graph) graph.vertex_count
      start.edge.vertex (PathState.start start.root start.edge.vertex)).Overflows True := by
  obtain ⟨hlate, hrow⟩ := hover
  have hpos : 0 < graph.vertex_count := Nat.lt_of_le_of_lt (Nat.zero_le _) (mem_starts.mp hs).1
  obtain ⟨fuel, hfuel⟩ := Nat.exists_eq_add_of_lt hpos
  rw [Nat.zero_add] at hfuel
  obtain ⟨edge, rest, hcons⟩ := List.exists_cons_of_ne_nil hrow
  have hcheck : edge_has_timestamp graph width start.root (start.time graph) edge start.edge.vertex =
      .error (.overflow_error "time window end overflows timestamp range") := by
    unfold edge_has_timestamp has_timestamp_in_window timestamps_in_window
    rw [checked_window_end_overflow h0 hlate]
    rfl
  rw [hfuel, time_window_dfs, hcons, List.foldlM_cons]
  exact ((Search.overflows_ofExcept hcheck (Or.inr trivial)).bind).bind

theorem count_time_window_cycles_bruteforce_quiet (hcap : ∀ limit ∈ cap, 2 ≤ limit)
    (hquiet : ∀ start ∈ starts graph, ¬start.Overflows graph width) :
    count_time_window_cycles_bruteforce graph width cap =
      (∅ : CycleHistogram).record (window_events graph width cap) := by
  rw [count_time_window_cycles_bruteforce, validate_max_cycle_length_ok hcap,
    validate_window_width_ok h0]
  refine Search.Emits.histogram (for_each_start_emits hw fun start hs => ?_)
  exact (window_start_emits hw h0 cap hs (hquiet start hs)).then (Search.emits_pure ())

theorem count_time_window_cycles_bruteforce_overflows (hcap : ∀ limit ∈ cap, 2 ≤ limit)
    (hover : ∃ start ∈ starts graph, start.Overflows graph width) :
    ∃ what, count_time_window_cycles_bruteforce graph width cap = .error (.overflow_error what) := by
  rw [count_time_window_cycles_bruteforce, validate_max_cycle_length_ok hcap,
    validate_window_width_ok h0]
  refine @Search.Overflows.histogram True _ ?_
  rw [for_each_start_eq hw.counted]
  obtain ⟨late, hlate, hlast⟩ := hover
  refine Search.overflows_forM (fun start hs => ?_)
    ⟨late, hlate, (window_start_overflows h0 cap hlate hlast).bind⟩
  by_cases hone : start.Overflows graph width
  · exact (window_start_overflows h0 cap hs hone).bind.settles
  · refine ((window_start_emits hw h0 cap hs hone).then (Search.emits_pure ())).settles trivial ?_
    intro event he
    obtain ⟨closed, hc, rfl⟩ := List.mem_map.mp he
    obtain ⟨heq, hle⟩ := window_closing_event hw hs hc
    rw [heq]
    exact hle

-- The oracle rejects a graph for one of two reasons.
theorem count_time_window_cycles_bruteforce_rejects_iff (hcap : ∀ limit ∈ cap, 2 ≤ limit) :
    (∃ what, count_time_window_cycles_bruteforce graph width cap = .error (.overflow_error what)) ↔
      (∃ start ∈ starts graph, start.Overflows graph width) ∨
        ∃ k, MAX_COUNT < (window_instances graph width cap k).ncard := by
  by_cases hover : ∃ start ∈ starts graph, start.Overflows graph width
  · exact iff_of_true (count_time_window_cycles_bruteforce_overflows hw h0 hcap hover) (Or.inl hover)
  have hquiet : ∀ start ∈ starts graph, ¬start.Overflows graph width := fun start hs hone =>
    hover ⟨start, hs, hone⟩
  have htwo : ∀ event ∈ window_events graph width cap, 2 ≤ event.1 := window_events_two_le hw
  rw [or_iff_right hover, count_time_window_cycles_bruteforce_quiet hw h0 hcap hquiet]
  constructor
  · intro h
    obtain ⟨what, herror⟩ := h
    by_contra hfew
    push Not at hfew
    obtain ⟨histogram, hok, -⟩ := CycleHistogram.record_ok ∅ _ htwo fun k => by
      rw [CycleHistogram.count_empty, Nat.zero_add, ← window_instances_ncard hw]
      exact hfew k
    rw [hok] at herror
    cases herror
  · intro h
    obtain ⟨k, hmany⟩ := h
    refine ⟨_, CycleHistogram.record_overflow ∅ _ htwo (fun k => by simp) fun hfits => ?_⟩
    have hfit := hfits k
    rw [CycleHistogram.count_empty, Nat.zero_add, ← window_instances_ncard hw] at hfit
    omega

end Oracle

end CycleEnum.Sequential
