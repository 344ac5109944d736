import CycleEnum.Sequential.RowWindows
import Mathlib.Data.Set.Finite.List

namespace CycleEnum.Sequential

open Enumeration

section Growth

-- The position of a row in a file that goes on.
def kept_position {rows : List RawTemporalEdge} (more : List RawTemporalEdge)
    (position : Fin rows.length) : Fin (rows ++ more).length :=
  position.castLE (by simp)

variable {rows more : List RawTemporalEdge} {width width' : Int} {k : Nat}

theorem kept_position_injective : (@kept_position rows more).Injective :=
  Fin.castLE_injective (by simp)

theorem get_kept (position : Fin rows.length) :
    (rows ++ more).get (kept_position more position) = rows.get position := by
  simp [kept_position]

theorem row_cycles_of_ncard_le (hk : 2 ≤ k) :
    (cycles_of (RowArc rows) k).ncard ≤ (cycles_of (RowArc (rows ++ more)) k).ncard := by
  have hverts : ∀ a b, RowArc (rows ++ more) a b → b ∈ (rows ++ more).map (·.target) := by
    rintro a b ⟨-, row, hrow, -, rfl⟩
    exact List.mem_map_of_mem hrow
  refine Set.ncard_le_ncard (fun c hc => ?_) (cycles_of_finite hverts hk)
  obtain ⟨hnodup, hlength, hchain⟩ := hc
  refine ⟨hnodup, hlength, hchain.imp fun a b harc => ?_⟩
  obtain ⟨hne, row, hrow, hs, ht⟩ := harc
  exact ⟨hne, row, List.mem_append_left _ hrow, hs, ht⟩

theorem RowCycle.grow (hwidth : width ≤ width') {positions : List (Fin rows.length)}
    (h : RowCycle rows width positions) :
    RowCycle (rows ++ more) width' (positions.map (kept_position more)) where
  closed := by
    rw [← List.map_rotate, List.forall₂_map_left_iff, List.forall₂_map_right_iff]
    simpa only [get_kept] using h.closed
  distinct := by
    rw [List.map_map]
    simpa only [Function.comp_def, get_kept] using h.distinct
  increasing := by
    rw [List.pairwise_map]
    simpa only [get_kept] using h.increasing
  window := by
    simp only [List.head?_map, List.getLast?_map, Option.mem_map, forall_exists_index, and_imp,
      forall_apply_eq_imp_iff₂, get_kept]
    intro first hfirst last hlast
    exact (h.window first hfirst last hlast).trans hwidth

theorem row_cycles_ncard_le (hwidth : width ≤ width') :
    (row_cycles rows width k).ncard ≤ (row_cycles (rows ++ more) width' k).ncard := by
  have hfinite : (row_cycles (rows ++ more) width' k).Finite :=
    (List.finite_length_eq (Fin (rows ++ more).length) k).subset fun _ hcycle => hcycle.1
  have hinj : (List.map (@kept_position rows more)).Injective :=
    List.map_injective_iff.mpr kept_position_injective
  refine Set.ncard_le_ncard_of_injOn (List.map (kept_position more)) (fun positions hcycle => ?_)
    hinj.injOn hfinite
  exact ⟨(List.length_map _).trans hcycle.1, hcycle.2.grow hwidth⟩

theorem RowWindow.grow (hwidth : width ≤ width') {start : Fin rows.length} {cycle : Cycle Int}
    (h : RowWindow rows width start cycle) :
    RowWindow (rows ++ more) width' (kept_position more start) cycle where
  nodup := h.nodup
  first := by simpa only [get_kept] using h.first
  others := by
    intro source target hfollows hother
    rw [get_kept] at hother ⊢
    obtain ⟨hne, row, hrow, hs, ht, hafter, hwithin⟩ := h.others source target hfollows hother
    exact ⟨hne, row, List.mem_append_left _ hrow, hs, ht, hafter, by omega⟩

-- A window cycle enters targets of rows only.
theorem row_windows_finite (hk : 2 ≤ k) : (row_windows rows width k).Finite := by
  have hcycles : (cycles_of (fun _ b => b ∈ rows.map (·.target)) k).Finite :=
    cycles_of_finite (fun _ _ hb => hb) hk
  refine (Set.finite_univ.prod hcycles).subset fun found hfound => ⟨trivial, ?_⟩
  obtain ⟨hlength, hwindow⟩ := hfound
  refine ⟨hwindow.nodup, hlength, (chain_iff_follows _ _ (by omega)).mpr fun a b hab => ?_⟩
  by_cases hstart : a = (rows.get found.1).source
  · subst hstart
    rw [hab.unique hwindow.nodup hwindow.first]
    exact List.mem_map_of_mem (List.get_mem rows found.1)
  · obtain ⟨-, row, hrow, -, rfl, -⟩ := hwindow.others a b hab hstart
    exact List.mem_map_of_mem hrow

theorem row_windows_ncard_le (hwidth : width ≤ width') (hk : 2 ≤ k) :
    (row_windows rows width k).ncard ≤ (row_windows (rows ++ more) width' k).ncard := by
  refine Set.ncard_le_ncard_of_injOn (Prod.map (kept_position more) id) (fun found hfound => ?_)
    (kept_position_injective.prodMap Function.injective_id).injOn (row_windows_finite hk)
  exact ⟨hfound.1, hfound.2.grow hwidth⟩

end Growth

end CycleEnum.Sequential
