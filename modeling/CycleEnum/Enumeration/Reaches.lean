import CycleEnum.Enumeration.Closings
import Mathlib.Data.Set.Insert

namespace CycleEnum.Enumeration

variable {V : Type}

-- The root can be reached from a vertex along arcs whose inner vertices lie
-- outside `avoid`. Vertices may repeat.
inductive Reaches (succ : V → List V) (root : V) (avoid : Set V) : V → Prop
  | close {v : V} (h : root ∈ succ v) : Reaches succ root avoid v
  | step {v next : V} (h : next ∈ succ v) (ha : next ∉ avoid)
      (hr : Reaches succ root avoid next) : Reaches succ root avoid v

variable {succ : V → List V} {root : V}

theorem Reaches.anti {avoid less : Set V} (hsub : less ⊆ avoid) {v : V}
    (h : Reaches succ root avoid v) : Reaches succ root less v := by
  induction h with
  | close h => exact .close h
  | step h ha _ ih => exact .step h (fun hm => ha (hsub hm)) ih

-- A set without arcs to the root whose other arcs stay inside it or run into
-- `avoid` holds no vertex that reaches the root.
theorem not_reaches_of_closed {avoid : Set V} (dead : Set V)
    (hclosed : ∀ x ∈ dead, root ∉ succ x ∧ ∀ y ∈ succ x, y ∈ dead ∨ y ∈ avoid)
    {v : V} (hv : v ∈ dead) : ¬Reaches succ root avoid v := by
  intro h
  induction h with
  | close h => exact (hclosed _ hv).1 h
  | step h ha _ ih => exact ih (((hclosed _ hv).2 _ h).resolve_right ha)

section Closings

variable [DecidableEq V] {cap : Option Nat}

theorem reaches_of_closings_ne_nil (fuel : Nat) (v : V) (below : List V)
    (h : closings succ root cap fuel (v :: below) ≠ []) :
    Reaches succ root {x | x ∈ v :: below} v := by
  induction fuel generalizing v below with
  | zero => exact absurd rfl h
  | succ fuel ih =>
      simp only [closings, branch, ne_eq, List.flatMap_eq_nil_iff, not_forall] at h
      obtain ⟨next, hnext, h⟩ := h
      split_ifs at h with hr hmem hcut
      · exact .close (hr ▸ hnext)
      · exact absurd rfl h
      · exact absurd rfl h
      · have hstep : Reaches succ root {x | x ∈ v :: below} next :=
          (ih next (v :: below) h).anti fun x hx => List.mem_cons_of_mem _ hx
        exact .step hnext hmem hstep

-- A vertex that cannot get back to the root outside the stack adds nothing.
theorem closings_eq_nil_of_not_reaches (fuel : Nat) (v : V) (below : List V)
    (h : ¬Reaches succ root {x | x ∈ below} v) :
    closings succ root cap fuel (v :: below) = [] := by
  by_contra hne
  exact h ((reaches_of_closings_ne_nil fuel v below hne).anti
    fun x hx => List.mem_cons_of_mem _ hx)

end Closings

end CycleEnum.Enumeration
