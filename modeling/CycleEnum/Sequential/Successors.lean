import CycleEnum.Sequential.Bruteforce

namespace CycleEnum.Sequential

open Enumeration

-- The arcs a search for cycles through its smallest vertex follows.
def static_successors (graph : GraphView) (root vertex : Nat) : List Nat :=
  ((graph.outgoing_row vertex).filter (root ≤ ·.vertex)).map (·.vertex)

-- The answer of `edge_has_timestamp` when the window does not overflow.
def admitted (graph : GraphView) (window_width : Int) (root : Nat) (start_timestamp : Int)
    (current : Nat) (edge : AdjacencyEntry) : Bool :=
  (List.range' edge.timestamp_begin (edge.timestamp_end - edge.timestamp_begin)).any fun offset =>
    in_window (if root > current then .Inclusive else .AfterStart) start_timestamp
      (start_timestamp + window_width) (timestamp_at graph.timestamps offset)

-- The arcs of the search from one start event.
def window_successors (graph : GraphView) (window_width : Int) (root : Nat)
    (start_timestamp : Int) (vertex : Nat) : List Nat :=
  ((graph.outgoing_row vertex).filter
    (admitted graph window_width root start_timestamp vertex)).map (·.vertex)

-- The increment for a closed path.
def closing_event (closed : List Nat) : Nat × Nat := (length_of_size closed.length, 1)

variable {graph : GraphView} (hw : graph.WellFormed)

include hw

theorem row_nodup (keep : AdjacencyEntry → Bool) (vertex : Nat) :
    (((graph.outgoing_row vertex).filter keep).map (·.vertex)).Nodup := by
  have hsorted := (hw.ascending vertex).filter keep
  exact List.pairwise_map.mpr (hsorted.imp fun h => Nat.ne_of_lt h)

theorem mem_row (keep : AdjacencyEntry → Bool) (vertex next : Nat)
    (h : next ∈ ((graph.outgoing_row vertex).filter keep).map (·.vertex)) :
    next ∈ List.range graph.vertex_count ∧ next ≠ vertex := by
  obtain ⟨edge, he, rfl⟩ := List.mem_map.mp h
  have hm := (List.mem_filter.mp he).1
  exact ⟨List.mem_range.mpr (hw.bounded vertex edge hm).2, hw.no_loop vertex edge hm⟩

theorem static_successors_nodup (root vertex : Nat) : (static_successors graph root vertex).Nodup :=
  row_nodup hw _ vertex

theorem window_successors_nodup (width : Int) (root : Nat) (start : Int) (vertex : Nat) :
    (window_successors graph width root start vertex).Nodup :=
  row_nodup hw _ vertex

theorem mem_static_successors {root vertex next : Nat}
    (h : next ∈ static_successors graph root vertex) :
    next ∈ List.range graph.vertex_count ∧ next ≠ vertex :=
  mem_row hw _ vertex next h

theorem mem_window_successors {width : Int} {root : Nat} {start : Int} {vertex next : Nat}
    (h : next ∈ window_successors graph width root start vertex) :
    next ∈ List.range graph.vertex_count ∧ next ≠ vertex :=
  mem_row hw _ vertex next h

-- Rows ascend, so an arc back to the smallest vertex comes first.
theorem static_successors_head (root vertex : Nat) (h : root ∈ static_successors graph root vertex) :
    (static_successors graph root vertex).head? = some root := by
  have hsorted : (static_successors graph root vertex).Pairwise (· < ·) :=
    List.pairwise_map.mpr ((hw.ascending vertex).filter _)
  have hge : ∀ next ∈ static_successors graph root vertex, root ≤ next := by
    intro next hn
    obtain ⟨edge, he, rfl⟩ := List.mem_map.mp hn
    simpa using (List.mem_filter.mp he).2
  cases hrow : static_successors graph root vertex with
  | nil => simp [hrow] at h
  | cons first rest =>
      rw [hrow] at h hsorted hge
      rcases List.mem_cons.mp h with rfl | hm
      · rfl
      · have := List.rel_of_pairwise_cons hsorted hm
        have := hge first (by simp)
        omega

-- A row has one edge to each target.
theorem edge_eq {u : Nat} {edge edge' : AdjacencyEntry} (h : edge ∈ graph.outgoing_row u)
    (h' : edge' ∈ graph.outgoing_row u) (hv : edge.vertex = edge'.vertex) : edge = edge' := by
  have hnodup : ((graph.outgoing_row u).map (·.vertex)).Nodup :=
    List.pairwise_map.mpr ((hw.ascending u).imp fun h => Nat.ne_of_lt h)
  exact List.inj_on_of_nodup_map hnodup h h' hv

theorem edge_has_timestamp_eq {width : Int} (h0 : 0 ≤ width) {start : Int}
    (hs : start ≤ MAX_TIMESTAMP - width) (root current : Nat) (edge : AdjacencyEntry)
    (he : edge ∈ graph.outgoing_row current) :
    edge_has_timestamp graph width root start edge current =
      .ok (admitted graph width root start current edge) :=
  has_timestamp_in_window_spec (hw.slices current edge he) h0 hs _

-- A path that closes leaves every vertex once.
omit hw in
theorem closes_outgoing_row {root top : Nat} {cap : Option Nat}
    {keep : Nat → AdjacencyEntry → Bool} {below closed : List Nat}
    (h : Closes (fun v => ((graph.outgoing_row v).filter (keep v)).map (·.vertex)) root cap
      (top :: below) closed)
    (hbelow : ∀ v ∈ below, graph.outgoing_row v ≠ []) :
    ∀ v ∈ closed, graph.outgoing_row v ≠ [] := by
  intro v hv
  by_cases hb : v ∈ below
  · exact hbelow v hb
  · have := h.leaves hv hb
    intro hrow
    simp [hrow] at this

theorem length_le_of_outgoing_row {closed : List Nat} (hn : closed.Nodup)
    (h : ∀ v ∈ closed, graph.outgoing_row v ≠ []) : closed.length ≤ graph.vertex_count := by
  have hsub : ∀ v ∈ closed, v ∈ List.range graph.vertex_count := by
    intro v hv
    obtain ⟨edge, he⟩ := List.exists_mem_of_ne_nil _ (h v hv)
    exact List.mem_range.mpr (hw.bounded v edge he).1
  simpa using (hn.subperm hsub).length_le

-- So its length is not narrowed.
theorem closing_event_eq {closed : List Nat} (hn : closed.Nodup)
    (h : ∀ v ∈ closed, graph.outgoing_row v ≠ []) : closing_event closed = (closed.length, 1) := by
  rw [closing_event, length_of_size_eq (hw.narrow closed hn h)]

end CycleEnum.Sequential
