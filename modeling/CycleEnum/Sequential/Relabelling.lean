import CycleEnum.Sequential.RowWindows
import Mathlib.Data.Int.ConditionallyCompleteOrder

namespace CycleEnum.Sequential

open Enumeration

section Relabelling

-- Another name for each vertex, and another origin of time.
def relabelled (rename : Int → Int) (shift : Int) (row : RawTemporalEdge) : RawTemporalEdge :=
  ⟨rename row.source, rename row.target, row.timestamp + shift⟩

variable {rows : List RawTemporalEdge} {rename : Int → Int} {shift width : Int} {k : Nat}

theorem mem_relabelled {row' : RawTemporalEdge} : row' ∈ rows.map (relabelled rename shift) ↔
    ∃ row ∈ rows, relabelled rename shift row = row' :=
  List.mem_map

theorem row_arc_relabelled (hinj : rename.Injective) {source target : Int}
    (h : RowArc rows source target) :
    RowArc (rows.map (relabelled rename shift)) (rename source) (rename target) := by
  obtain ⟨hne, row, hrow, rfl, rfl⟩ := h
  exact ⟨hinj.ne hne, _, mem_relabelled.mpr ⟨row, hrow, rfl⟩, rfl, rfl⟩

theorem row_arc_of_relabelled {source target : Int}
    (h : RowArc (rows.map (relabelled rename shift)) source target) :
    ∃ s t, RowArc rows s t ∧ rename s = source ∧ rename t = target := by
  obtain ⟨hne, row', hrow', rfl, rfl⟩ := h
  obtain ⟨row, hrow, rfl⟩ := mem_relabelled.mp hrow'
  exact ⟨_, _, ⟨fun heq => hne (congrArg rename heq), row, hrow, rfl, rfl⟩, rfl, rfl⟩

theorem cycles_of_relabelled (hinj : rename.Injective) (hk : 2 ≤ k) :
    (cycles_of (RowArc (rows.map (relabelled rename shift))) k).ncard =
      (cycles_of (RowArc rows) k).ncard := by
  have hback : ∀ id, Function.invFun rename (rename id) = id := Function.leftInverse_invFun hinj
  refine (cycles_of_bij_on (f := rename) (g := Function.invFun rename) hk (fun s t harc => ?_)
    fun x y harc => ?_).ncard_eq.symm
  · exact ⟨row_arc_relabelled hinj harc, hback s⟩
  · obtain ⟨s, t, hst, rfl, rfl⟩ := row_arc_of_relabelled harc
    rw [hback, hback]
    exact ⟨hst, rfl⟩

-- The position of a row in the other file.
def relabelled_position (rename : Int → Int) (shift : Int) (position : Fin rows.length) :
    Fin (rows.map (relabelled rename shift)).length :=
  position.cast (by rw [List.length_map])

theorem relabelled_position_injective :
    (@relabelled_position rows rename shift).Injective :=
  Fin.cast_injective (by rw [List.length_map])

theorem relabelled_position_surjective :
    (@relabelled_position rows rename shift).Surjective := fun position =>
  ⟨position.cast (List.length_map (relabelled rename shift)), rfl⟩

theorem get_relabelled (position : Fin rows.length) :
    (rows.map (relabelled rename shift)).get (relabelled_position rename shift position) =
      relabelled rename shift (rows.get position) := by
  simp [relabelled_position]

theorem row_cycle_relabelled (hinj : rename.Injective) {positions : List (Fin rows.length)} :
    RowCycle (rows.map (relabelled rename shift)) width
        (positions.map (relabelled_position rename shift)) ↔ RowCycle rows width positions := by
  have hclosed : List.Forall₂ (fun position next =>
        ((rows.map (relabelled rename shift)).get position).target =
          ((rows.map (relabelled rename shift)).get next).source)
        (positions.map (relabelled_position rename shift))
        ((positions.map (relabelled_position rename shift)).rotate 1) ↔
      List.Forall₂ (fun position next => (rows.get position).target = (rows.get next).source)
        positions (positions.rotate 1) := by
    rw [← List.map_rotate, List.forall₂_map_left_iff, List.forall₂_map_right_iff]
    simp only [get_relabelled, relabelled, hinj.eq_iff]
  have hdistinct : ((positions.map (relabelled_position rename shift)).map fun position =>
        ((rows.map (relabelled rename shift)).get position).source).Nodup ↔
      (positions.map fun position => (rows.get position).source).Nodup := by
    have hmap : (positions.map (relabelled_position rename shift)).map (fun position =>
        ((rows.map (relabelled rename shift)).get position).source) =
        (positions.map fun position => (rows.get position).source).map rename := by
      simp only [List.map_map, Function.comp_def, get_relabelled, relabelled]
    rw [hmap, List.nodup_map_iff hinj]
  have hincreasing : ((positions.map (relabelled_position rename shift)).Pairwise fun a b =>
        ((rows.map (relabelled rename shift)).get a).timestamp <
          ((rows.map (relabelled rename shift)).get b).timestamp) ↔
      positions.Pairwise fun a b => (rows.get a).timestamp < (rows.get b).timestamp := by
    simp only [List.pairwise_map, get_relabelled, relabelled, Int.add_lt_add_iff_right]
  have hwindow : (∀ first ∈ (positions.map (relabelled_position rename shift)).head?,
        ∀ last ∈ (positions.map (relabelled_position rename shift)).getLast?,
        ((rows.map (relabelled rename shift)).get last).timestamp -
          ((rows.map (relabelled rename shift)).get first).timestamp ≤ width) ↔
      ∀ first ∈ positions.head?, ∀ last ∈ positions.getLast?,
        (rows.get last).timestamp - (rows.get first).timestamp ≤ width := by
    simp only [List.head?_map, List.getLast?_map, Option.mem_map, forall_exists_index, and_imp,
      forall_apply_eq_imp_iff₂, get_relabelled, relabelled, Int.add_sub_add_right]
  constructor
  · intro h
    exact ⟨hclosed.mp h.closed, hdistinct.mp h.distinct, hincreasing.mp h.increasing,
      hwindow.mp h.window⟩
  · intro h
    exact ⟨hclosed.mpr h.closed, hdistinct.mpr h.distinct, hincreasing.mpr h.increasing,
      hwindow.mpr h.window⟩

theorem row_cycles_relabelled (hinj : rename.Injective) :
    (row_cycles (rows.map (relabelled rename shift)) width k).ncard =
      (row_cycles rows width k).ncard := by
  have himage : row_cycles (rows.map (relabelled rename shift)) width k =
      Set.image (List.map (relabelled_position rename shift)) (row_cycles rows width k) := by
    refine Set.ext fun positions' => ⟨fun ⟨hlength, hcycle⟩ => ?_, ?_⟩
    · obtain ⟨positions, rfl⟩ := List.map_surjective_iff.mpr relabelled_position_surjective positions'
      exact ⟨positions, ⟨(List.length_map _).symm.trans hlength, (row_cycle_relabelled hinj).mp hcycle⟩,
        rfl⟩
    · rintro ⟨positions, ⟨rfl, hcycle⟩, rfl⟩
      exact ⟨List.length_map _, (row_cycle_relabelled hinj).mpr hcycle⟩
  rw [himage, Set.ncard_image_of_injective _
    (List.map_injective_iff.mpr relabelled_position_injective)]

theorem window_arc_relabelled (hmono : StrictMono rename) {start : RawTemporalEdge}
    {source target : Int} (h : WindowArc rows width start source target) :
    WindowArc (rows.map (relabelled rename shift)) width (relabelled rename shift start)
      (rename source) (rename target) := by
  obtain ⟨hne, row, hrow, rfl, rfl, hafter, hwithin⟩ := h
  refine ⟨hmono.injective.ne hne, _, mem_relabelled.mpr ⟨row, hrow, rfl⟩, rfl, rfl, ?_, ?_⟩
  · simp only [relabelled, hmono.lt_iff_lt]
    omega
  · simp only [relabelled]
    omega

theorem window_arc_of_relabelled (hmono : StrictMono rename) {start : RawTemporalEdge}
    {source target : Int} (h : WindowArc (rows.map (relabelled rename shift)) width
      (relabelled rename shift start) source target) :
    ∃ s t, WindowArc rows width start s t ∧ rename s = source ∧ rename t = target := by
  obtain ⟨hne, row', hrow', rfl, rfl, hafter, hwithin⟩ := h
  obtain ⟨row, hrow, rfl⟩ := mem_relabelled.mp hrow'
  simp only [relabelled, hmono.lt_iff_lt] at hafter hwithin
  exact ⟨row.source, row.target, ⟨fun heq => hne (congrArg rename heq), row, hrow, rfl, rfl, by omega,
    by omega⟩, rfl, rfl⟩

-- The ties between starts go by the order of the vertices, which the names must keep.
theorem row_windows_relabelled (hmono : StrictMono rename) (hk : 2 ≤ k) :
    (row_windows (rows.map (relabelled rename shift)) width k).ncard =
      (row_windows rows width k).ncard := by
  have hback : ∀ id, Function.invFun rename (rename id) = id :=
    Function.leftInverse_invFun hmono.injective
  have hbij : ∀ start : RawTemporalEdge, Set.BijOn (Cycle.map rename)
      (start_cycles rows width k start)
      (start_cycles (rows.map (relabelled rename shift)) width k (relabelled rename shift start)) := by
    intro start
    refine anchored_cycles_bij_on (g := Function.invFun rename) hk (fun s t harc => ?_)
      fun x y harc => ?_
    · rcases harc with ⟨rfl, rfl⟩ | ⟨hother, harc⟩
      · exact ⟨Or.inl ⟨rfl, rfl⟩, hback _⟩
      · exact ⟨Or.inr ⟨hmono.injective.ne hother, window_arc_relabelled hmono harc⟩, hback s⟩
    · rcases harc with ⟨rfl, rfl⟩ | ⟨hother, harc⟩
      · exact ⟨Or.inl ⟨hback _, hback _⟩, by rw [hback]⟩
      · obtain ⟨s, t, hst, rfl, rfl⟩ := window_arc_of_relabelled hmono harc
        rw [hback, hback]
        exact ⟨Or.inr ⟨fun heq => hother (congrArg rename heq), hst⟩, rfl⟩
  rw [row_windows_eq hk, row_windows_eq hk]
  refine (ncard_pairs (A := fun start => start_cycles rows width k (rows.get start))
    (B := fun position => start_cycles (rows.map (relabelled rename shift)) width k
      ((rows.map (relabelled rename shift)).get position))
    (φ := relabelled_position rename shift) (F := Cycle.map rename)
    (fun start start' _ _ heq => relabelled_position_injective heq) (fun start _ => ?_)
    fun position hfound => ?_).symm
  · rw [get_relabelled]
    exact hbij (rows.get start)
  · obtain ⟨start, rfl⟩ := relabelled_position_surjective position
    obtain ⟨c, hc⟩ := hfound
    rw [get_relabelled] at hc
    obtain ⟨cycle, hcycle, -⟩ := (hbij (rows.get start)).surjOn hc
    exact ⟨start, ⟨cycle, hcycle⟩, rfl⟩

end Relabelling

end CycleEnum.Sequential
