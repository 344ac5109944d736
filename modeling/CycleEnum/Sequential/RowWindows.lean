import CycleEnum.Sequential.RowCycles
import CycleEnum.Sequential.WindowErrors

namespace CycleEnum.Sequential

open Enumeration

section Rows

-- A row within the window of a start row. Of the rows with the timestamp of the start only
-- those that leave smaller vertices belong to it, so that each cycle has one start.
def WindowArc (rows : List RawTemporalEdge) (width : Int) (start : RawTemporalEdge)
    (source target : Int) : Prop :=
  source ≠ target ∧ ∃ row ∈ rows, row.source = source ∧ row.target = target ∧
    (start.timestamp < row.timestamp ∨ start.timestamp = row.timestamp ∧ source < start.source) ∧
    row.timestamp ≤ start.timestamp + width

-- A cycle that leaves its first vertex by the start row, with a row of the window for each
-- of its other arcs.
structure RowWindow (rows : List RawTemporalEdge) (width : Int) (start : Fin rows.length)
    (cycle : Cycle Int) : Prop where
  nodup : cycle.Nodup
  first : Follows cycle (rows.get start).source (rows.get start).target
  others : ∀ source target, Follows cycle source target → source ≠ (rows.get start).source →
    WindowArc rows width (rows.get start) source target

def row_windows (rows : List RawTemporalEdge) (width : Int) (k : Nat) :
    Set (Fin rows.length × Cycle Int) :=
  {found | found.2.length = k ∧ RowWindow rows width found.1 found.2}

-- The cycles of one start row.
def start_cycles (rows : List RawTemporalEdge) (width : Int) (k : Nat) (start : RawTemporalEdge) :
    Set (Cycle Int) :=
  anchored_cycles (WindowArc rows width start) start.source start.target k

end Rows

section Events

variable {rows : List RawTemporalEdge} {view : GraphView} {width : Int} {k : Nat}

-- The cycles whose first arc has the event at an offset.
def event_cycles (view : GraphView) (width : Int) (k offset : Nat) : Set (Cycle Nat) :=
  {c | ∃ u v, is_event view u v offset ∧ c ∈ anchored_cycles (fun a b =>
    b ∈ window_successors view width u (timestamp_at view.timestamps offset) a) u v k}

theorem is_event_unique (h : build_graph_view (graph_of_rows rows) = .ok view) {u v u' v' offset : Nat}
    (hevent : is_event view u v offset) (hevent' : is_event view u' v' offset) : u = u' ∧ v = v' := by
  obtain ⟨row, hat, rfl, rfl⟩ := (is_event_iff h).mp hevent
  obtain ⟨row', hat', rfl, rfl⟩ := (is_event_iff h).mp hevent'
  obtain rfl := Option.some.inj (hat.symm.trans hat')
  exact ⟨rfl, rfl⟩

-- The offset of an event gives its start.
theorem start_eq (h : build_graph_view (graph_of_rows rows) = .ok view)
    (hids : view.vertex_count < 2 ^ 32) {start start' : Start}
    (hs : start ∈ starts view) (hs' : start' ∈ starts view) (hoffset : start.offset = start'.offset) :
    start = start' := by
  obtain ⟨-, hedge, hin⟩ := mem_starts.mp hs
  obtain ⟨-, hedge', hin'⟩ := mem_starts.mp hs'
  have hw := parsed_well_formed h hids
  obtain ⟨hroot, hvertex⟩ := is_event_unique h ⟨start.edge, hw.whole _ ▸ hedge, rfl, hin⟩
    ⟨start'.edge, hw.whole _ ▸ hedge', rfl, by rw [hoffset]; exact hin'⟩
  rw [← hroot] at hedge'
  have hsame := edge_eq (parsed_well_formed h hids) hedge hedge' hvertex
  cases start
  cases start'
  simp_all

theorem exists_start (h : build_graph_view (graph_of_rows rows) = .ok view)
    (hids : view.vertex_count < 2 ^ 32) {u v offset : Nat}
    (hevent : is_event view u v offset) :
    ∃ start ∈ starts view, start.root = u ∧ start.edge.vertex = v ∧ start.offset = offset := by
  obtain ⟨edge, hedge, rfl, hin⟩ := hevent
  rw [← (parsed_well_formed h hids).whole] at hedge
  exact ⟨⟨u, edge, offset⟩,
    mem_starts.mpr ⟨((parsed_well_formed h hids).bounded u edge hedge).1, hedge, hin⟩, rfl, rfl, rfl⟩

-- The closed paths from a start are the cycles through its arc, read backwards.
theorem closed_paths_bij_on (hk : 2 ≤ k) {cap : Option Nat} (hcap : ∀ limit ∈ cap, k ≤ limit)
    {succ : Nat → List Nat} {root first : Nat} :
    Set.BijOn (fun closed : List Nat => (↑closed.reverse : Cycle Nat))
      {closed | Closes succ root cap [first, root] closed ∧ closed.length = k}
      (anchored_cycles (fun a b => b ∈ succ a) root first k) := by
  have hpath : ∀ rest : List Nat, (root :: first :: rest).length = k →
      (Closes succ root cap [first, root] (rest.reverse ++ [first, root]) ↔
        (↑(root :: first :: rest) : Cycle Nat) ∈
          anchored_cycles (fun a b => b ∈ succ a) root first k) := by
    intro rest hlen
    have hnodup : (rest.reverse ++ [first, root]).Nodup ↔ (root :: first :: rest).Nodup := by
      rw [← List.nodup_reverse]
      simp
    have hlength : (rest.reverse ++ [first, root]).length = (root :: first :: rest).length := by simp
    rw [closes_iff_path, hnodup, List.reverse_reverse, hlength, hlen, mem_anchored_cycles hk]
    constructor
    · rintro ⟨hn, hchain, -⟩
      exact ⟨⟨hn, hlen⟩, ⟨rest, rfl⟩, (rooted_chain_iff _ hn).mp hchain⟩
    · rintro ⟨⟨hn, -⟩, -, hothers⟩
      exact ⟨hn, (rooted_chain_iff _ hn).mpr hothers, Or.inr hcap⟩
  have hread : ∀ closed, Closes succ root cap [first, root] closed →
      ∃ rest : List Nat, closed = rest.reverse ++ [first, root] := by
    intro closed hcloses
    obtain ⟨ext, rfl⟩ := hcloses.suffix
    exact ⟨ext.reverse, by rw [List.reverse_reverse]⟩
  refine ⟨?_, ?_, ?_⟩
  · rintro closed ⟨hcloses, hlen⟩
    obtain ⟨rest, rfl⟩ := hread closed hcloses
    have hmem := (hpath rest (by simpa using hlen)).mp hcloses
    simpa using hmem
  · rintro closed ⟨hcloses, hlen⟩ closed' ⟨hcloses', hlen'⟩ heq
    obtain ⟨rest, rfl⟩ := hread closed hcloses
    obtain ⟨rest', rfl⟩ := hread closed' hcloses'
    have hn : (root :: first :: rest).Nodup := by
      rw [← List.nodup_reverse]
      simpa using hcloses.nodup
    have hcycles : (↑(root :: first :: rest) : Cycle Nat) = ↑(root :: first :: rest') := by
      simpa using heq
    rw [(List.cons.inj (rooted_inj hn hcycles)).2]
  · intro c hc
    obtain ⟨⟨-, rfl⟩, ⟨rest, rfl⟩, -⟩ := (mem_anchored_cycles hk).mp hc
    refine ⟨rest.reverse ++ [first, root], ⟨(hpath rest rfl).mpr hc, by simp⟩, by simp⟩

theorem window_instances_event_cycles (h : build_graph_view (graph_of_rows rows) = .ok view)
    (hids : view.vertex_count < 2 ^ 32) (hk : 2 ≤ k)
    {cap : Option Nat} (hcap : ∀ limit ∈ cap, k ≤ limit) :
    (window_instances view width cap k).ncard =
      {found : Nat × Cycle Nat | found.2 ∈ event_cycles view width k found.1}.ncard := by
  refine ncard_pairs (A := fun start : Start => {closed | start ∈ starts view ∧
      Closes (window_successors view width start.root (start.time view)) start.root cap
        [start.edge.vertex, start.root] closed ∧ closed.length = k})
    (B := event_cycles view width k) (φ := Start.offset)
    (F := fun closed : List Nat => (↑closed.reverse : Cycle Nat)) ?_ ?_ ?_
  · rintro start start' ⟨closed, hs, -⟩ ⟨closed', hs', -⟩ hoffset
    exact start_eq h hids hs hs' hoffset
  · rintro start ⟨closed, hs, -⟩
    obtain ⟨-, hedge, hin⟩ := mem_starts.mp hs
    have hevent : is_event view start.root start.edge.vertex start.offset :=
      ⟨_, (parsed_well_formed h hids).whole _ ▸ hedge, rfl, hin⟩
    have hA : {closed : List Nat | start ∈ starts view ∧
        Closes (window_successors view width start.root (start.time view)) start.root cap
          [start.edge.vertex, start.root] closed ∧ closed.length = k} =
        {closed | Closes (window_successors view width start.root (start.time view)) start.root cap
          [start.edge.vertex, start.root] closed ∧ closed.length = k} := by
      simp [hs]
    have hB : event_cycles view width k start.offset = anchored_cycles (fun a b =>
        b ∈ window_successors view width start.root (start.time view) a) start.root
        start.edge.vertex k := by
      refine Set.ext fun c => ⟨?_, fun hc => ⟨_, _, hevent, hc⟩⟩
      rintro ⟨u, v, hevent', hc⟩
      obtain ⟨rfl, rfl⟩ := is_event_unique h hevent' hevent
      exact hc
    rw [hA, hB]
    exact closed_paths_bij_on hk hcap
  · rintro offset ⟨c, u, v, hevent, hc⟩
    obtain ⟨start, hs, rfl, rfl, rfl⟩ := exists_start h hids hevent
    obtain ⟨closed, hclosed, -⟩ := (closed_paths_bij_on hk hcap).surjOn hc
    exact ⟨start, ⟨closed, hs, hclosed⟩, rfl⟩

theorem window_successors_row (h : build_graph_view (graph_of_rows rows) = .ok view)
    (hids : view.vertex_count < 2 ^ 32) {u a b : Nat}
    {time : Int} : b ∈ window_successors view width u time a ↔ ∃ row ∈ kept_rows rows,
      (graph_of_rows rows).external_ids.idxOf row.source = a ∧
      (graph_of_rows rows).external_ids.idxOf row.target = b ∧
      (time < row.timestamp ∨ time = row.timestamp ∧ a < u) ∧ row.timestamp ≤ time + width := by
  have hwindow : ∀ timestamp : Int,
      in_window (if u > a then .Inclusive else .AfterStart) time (time + width) timestamp = true ↔
        (time < timestamp ∨ time = timestamp ∧ a < u) ∧ timestamp ≤ time + width := by
    intro timestamp
    split_ifs with hua
    · simp only [in_window, decide_eq_true_eq]
      omega
    · simp only [in_window, decide_eq_true_eq]
      omega
  have hevents : b ∈ window_successors view width u time a ↔ ∃ offset, is_event view a b offset ∧
      in_window (if u > a then .Inclusive else .AfterStart) time (time + width)
        (timestamp_at view.timestamps offset) = true := by
    simp only [window_successors, admitted, is_event, List.mem_map, List.mem_filter, List.any_eq_true,
      List.mem_range'_1, (parsed_well_formed h hids).whole]
    constructor
    · rintro ⟨entry, ⟨hentry, offset, ⟨hlow, hhigh⟩, hin⟩, rfl⟩
      exact ⟨offset, ⟨entry, hentry, rfl, hlow, by omega⟩, hin⟩
    · rintro ⟨offset, ⟨entry, hentry, rfl, hlow, hhigh⟩, hin⟩
      exact ⟨entry, ⟨hentry, offset, ⟨hlow, by omega⟩, hin⟩, rfl⟩
  rw [hevents]
  constructor
  · rintro ⟨offset, hevent, hin⟩
    obtain ⟨row, hat, hs, ht⟩ := (is_event_iff h).mp hevent
    rw [timestamp_at_expanded h hat, hwindow] at hin
    exact ⟨row, (graph_of_rows_expanded rows).mem_iff.mp (List.mem_of_getElem? hat), hs, ht, hin⟩
  · rintro ⟨row, hrow, hs, ht, hin⟩
    obtain ⟨offset, hat⟩ :=
      List.mem_iff_getElem?.mp ((graph_of_rows_expanded rows).mem_iff.mpr hrow)
    refine ⟨offset, (is_event_iff h).mpr ⟨row, hat, hs, ht⟩, ?_⟩
    rw [timestamp_at_expanded h hat]
    exact (hwindow _).mpr hin

-- The compact ids keep the order of the ids in the file.
theorem idxOf_lt_iff {x y : Int} (hx : x ∈ (graph_of_rows rows).external_ids)
    (hy : y ∈ (graph_of_rows rows).external_ids) :
    (graph_of_rows rows).external_ids.idxOf x < (graph_of_rows rows).external_ids.idxOf y ↔ x < y := by
  have hid : ∀ id ∈ (graph_of_rows rows).external_ids,
      (graph_of_rows rows).external_id ((graph_of_rows rows).external_ids.idxOf id) = .ok id := by
    intro id hmem
    rw [external_id_eq_ok_iff, List.getElem?_eq_getElem (List.idxOf_lt_length_of_mem hmem),
      List.getElem_idxOf]
  exact ((lossless_graph_of_rows rows).increasing _ _ _ _ (hid x hx) (hid y hy)).symm

theorem start_kept {start : Fin rows.length}
    (hne : (rows.get start).source ≠ (rows.get start).target) : rows.get start ∈ kept_rows rows :=
  mem_kept_rows.mpr ⟨List.get_mem rows start, hne⟩

theorem window_arc_of_successor (h : build_graph_view (graph_of_rows rows) = .ok view)
    (hids : view.vertex_count < 2 ^ 32)
    {start : Fin rows.length} (hne : (rows.get start).source ≠ (rows.get start).target) {a b : Nat}
    (harc : b ∈ window_successors view width (vertex_of rows start) (rows.get start).timestamp a) :
    WindowArc rows width (rows.get start) ((graph_of_rows rows).external_ids.getD a 0)
        ((graph_of_rows rows).external_ids.getD b 0) ∧
      (graph_of_rows rows).external_ids.idxOf ((graph_of_rows rows).external_ids.getD a 0) = a := by
  obtain ⟨row, hrow, rfl, rfl, hafter, hwithin⟩ := (window_successors_row h hids).mp harc
  obtain ⟨hs, ht⟩ := mem_external_ids hrow
  rw [vertex_of, idxOf_lt_iff hs (mem_external_ids (start_kept hne)).1] at hafter
  rw [getD_idxOf hs, getD_idxOf ht]
  obtain ⟨hrow, hends⟩ := mem_kept_rows.mp hrow
  exact ⟨⟨hends, row, hrow, rfl, rfl, hafter, hwithin⟩, rfl⟩

theorem successor_of_window_arc (h : build_graph_view (graph_of_rows rows) = .ok view)
    (hids : view.vertex_count < 2 ^ 32)
    {start : Fin rows.length} (hne : (rows.get start).source ≠ (rows.get start).target)
    {source target : Int} (harc : WindowArc rows width (rows.get start) source target) :
    (graph_of_rows rows).external_ids.idxOf target ∈ window_successors view width
        (vertex_of rows start) (rows.get start).timestamp
        ((graph_of_rows rows).external_ids.idxOf source) ∧
      (graph_of_rows rows).external_ids.getD
        ((graph_of_rows rows).external_ids.idxOf source) 0 = source := by
  obtain ⟨hends, row, hrow, rfl, rfl, hafter, hwithin⟩ := harc
  have hkept : row ∈ kept_rows rows := mem_kept_rows.mpr ⟨hrow, hends⟩
  have hs := (mem_external_ids hkept).1
  rw [← idxOf_lt_iff hs (mem_external_ids (start_kept hne)).1] at hafter
  exact ⟨(window_successors_row h hids).mpr ⟨row, hkept, rfl, rfl, hafter, hwithin⟩, getD_idxOf hs⟩

theorem anchored_rows_bij_on (h : build_graph_view (graph_of_rows rows) = .ok view)
    (hids : view.vertex_count < 2 ^ 32) (hk : 2 ≤ k)
    {start : Fin rows.length} (hne : (rows.get start).source ≠ (rows.get start).target) :
    Set.BijOn (Cycle.map fun id => (graph_of_rows rows).external_ids.idxOf id)
      (start_cycles rows width k (rows.get start))
      (event_cycles view width k (offset_of rows start)) := by
  have hkept := start_kept hne
  have hs := getD_idxOf (mem_external_ids hkept).1
  have hB : event_cycles view width k (offset_of rows start) =
      anchored_cycles (fun a b => b ∈ window_successors view width (vertex_of rows start)
        (rows.get start).timestamp a) (vertex_of rows start)
        ((graph_of_rows rows).external_ids.idxOf (rows.get start).target) k := by
    rw [← timestamp_offset_of h hne]
    have hevent := (is_event_offset_of h).mpr ⟨hne, rfl, rfl⟩
    refine Set.ext fun c => ⟨?_, fun hc => ⟨_, _, hevent, hc⟩⟩
    rintro ⟨u, v, hevent', hc⟩
    obtain ⟨rfl, rfl⟩ := is_event_unique h hevent' hevent
    exact hc
  rw [hB]
  refine anchored_cycles_bij_on (g := fun v => (graph_of_rows rows).external_ids.getD v 0) hk
    (fun source target harc => ?_) fun a b harc => ?_
  · rcases harc with ⟨rfl, rfl⟩ | ⟨hother, harc⟩
    · exact ⟨Or.inl ⟨rfl, rfl⟩, hs⟩
    · obtain ⟨hsucc, hback⟩ := successor_of_window_arc h hids hne harc
      refine ⟨Or.inr ⟨fun heq => hother ?_, hsucc⟩, hback⟩
      rw [← hback, heq]
      exact hs
  · rcases harc with ⟨rfl, rfl⟩ | ⟨hother, harc⟩
    · exact ⟨Or.inl ⟨hs, getD_idxOf (mem_external_ids hkept).2⟩, by rw [hs]⟩
    · obtain ⟨harc, hback⟩ := window_arc_of_successor h hids hne harc
      refine ⟨Or.inr ⟨fun heq => hother ?_, harc⟩, hback⟩
      rw [← hback, heq]

theorem row_windows_eq (hk : 2 ≤ k) : row_windows rows width k =
    {found | found.2 ∈ start_cycles rows width k (rows.get found.1)} := by
  refine Set.ext fun ⟨start, cycle⟩ => ?_
  refine Iff.trans ?_ (mem_anchored_cycles hk).symm
  constructor
  · rintro ⟨hlen, hcycle⟩
    exact ⟨⟨hcycle.nodup, hlen⟩, hcycle.first, hcycle.others⟩
  · rintro ⟨⟨hnodup, hlen⟩, hfirst, hothers⟩
    exact ⟨hlen, hnodup, hfirst, hothers⟩

theorem window_instances_ncard_rows (h : build_graph_view (graph_of_rows rows) = .ok view)
    (hids : view.vertex_count < 2 ^ 32)
    (hk : 2 ≤ k) {cap : Option Nat} (hcap : ∀ limit ∈ cap, k ≤ limit) :
    (window_instances view width cap k).ncard = (row_windows rows width k).ncard := by
  have hno_loop : ∀ start : Fin rows.length, (start_cycles rows width k (rows.get start)).Nonempty →
      (rows.get start).source ≠ (rows.get start).target := by
    rintro start ⟨cycle, hcycle⟩
    obtain ⟨⟨hnodup, -⟩, hfirst, -⟩ := (mem_anchored_cycles hk).mp hcycle
    exact hfirst.ne hnodup
  rw [window_instances_event_cycles h hids hk hcap, row_windows_eq hk]
  refine (ncard_pairs (fun start start' _ _ heq => offset_of_injective rows heq)
    (fun start hfound => anchored_rows_bij_on h hids hk (hno_loop start hfound)) ?_).symm
  rintro offset ⟨c, hc⟩
  obtain ⟨u, v, hevent, -⟩ := id hc
  obtain ⟨row, hat, -⟩ := (is_event_iff h).mp hevent
  obtain ⟨start, rfl⟩ := exists_offset_of (List.getElem?_eq_some_iff.mp hat).1
  have hne := ((is_event_offset_of h).mp hevent).1
  obtain ⟨cycle, hcycle, -⟩ := (anchored_rows_bij_on h hids hk hne).surjOn hc
  exact ⟨start, ⟨cycle, hcycle⟩, rfl⟩

end Events

end CycleEnum.Sequential
