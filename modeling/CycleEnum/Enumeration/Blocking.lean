import Mathlib.Algebra.BigOperators.Group.List.Basic
import Mathlib.Algebra.Order.BigOperators.Group.List
import Mathlib.Algebra.Order.Ring.Nat
import Mathlib.Data.Set.Basic
import Mathlib.Logic.Function.Basic
import Mathlib.Tactic.Common

namespace CycleEnum.Enumeration

-- The marks of Johnson's search. The list of a vertex names the vertices that
-- are freed together with it, last registered first.
structure Blocking (V : Type) where
  blocked : V → Bool
  blockedList : V → List V

namespace Blocking

variable {V : Type} [DecidableEq V]

def none : Blocking V := ⟨fun _ => false, fun _ => []⟩

def mark (b : Blocking V) (v : V) (flag : Bool) : Blocking V :=
  { b with blocked := Function.update b.blocked v flag }

def setList (b : Blocking V) (v : V) (list : List V) : Blocking V :=
  { b with blockedList := Function.update b.blockedList v list }

omit [DecidableEq V] in
@[simp] theorem none_blocked (v : V) : (none : Blocking V).blocked v = false := rfl

omit [DecidableEq V] in
@[simp] theorem none_blockedList (v : V) : (none : Blocking V).blockedList v = [] := rfl

@[simp] theorem mark_blockedList (b : Blocking V) (v : V) (flag : Bool) :
    (b.mark v flag).blockedList = b.blockedList := rfl

theorem mark_blocked (b : Blocking V) (v : V) (flag : Bool) (x : V) :
    (b.mark v flag).blocked x = if x = v then flag else b.blocked x := by
  simp [mark, Function.update_apply]

@[simp] theorem mark_blocked_self (b : Blocking V) (v : V) (flag : Bool) :
    (b.mark v flag).blocked v = flag := by simp [mark_blocked]

@[simp] theorem setList_blocked (b : Blocking V) (v : V) (list : List V) :
    (b.setList v list).blocked = b.blocked := rfl

theorem setList_blockedList (b : Blocking V) (v : V) (list : List V) (x : V) :
    (b.setList v list).blockedList x = if x = v then list else b.blockedList x := by
  simp [setList, Function.update_apply]

-- Empties the list of `v` from its end and frees every blocked vertex on it in
-- the same way. The fuel bounds the entries removed.
def drain : Nat → V → Blocking V → Option (Blocking V)
  | 0, _, _ => Option.none
  | fuel + 1, v, b =>
      match b.blockedList v with
      | [] => some b
      | dependent :: rest =>
          if b.blocked dependent then
            ((drain fuel dependent ((b.setList v rest).mark dependent false)).bind fun b =>
              drain fuel v b)
          else drain fuel v (b.setList v rest)

-- The number of entries on all lists.
def pending (verts : List V) (b : Blocking V) : Nat :=
  (verts.map fun v => (b.blockedList v).length).sum

def unblock (verts : List V) (v : V) (b : Blocking V) : Option (Blocking V) :=
  drain (b.pending verts + 1) v (b.mark v false)

def register (v : V) (nexts : List V) (b : Blocking V) : Blocking V :=
  nexts.foldl (fun b next =>
    if v ∈ b.blockedList next then b else b.setList next (v :: b.blockedList next)) b

@[simp] theorem register_blocked (v : V) (nexts : List V) (b : Blocking V) :
    (b.register v nexts).blocked = b.blocked := by
  induction nexts generalizing b with
  | nil => rfl
  | cons next rest ih =>
      simp only [register, List.foldl_cons] at ih ⊢
      rw [ih]
      split_ifs <;> rfl

theorem register_blockedList (v : V) (nexts : List V) (b : Blocking V) (x : V) :
    (b.register v nexts).blockedList x =
      if x ∈ nexts ∧ v ∉ b.blockedList x then v :: b.blockedList x else b.blockedList x := by
  induction nexts generalizing b with
  | nil => simp [register]
  | cons next rest ih =>
      have hcons : b.register v (next :: rest) = (if v ∈ b.blockedList next then b
          else b.setList next (v :: b.blockedList next)).register v rest := rfl
      rw [hcons, ih]
      by_cases hx : x = next
      · subst hx
        by_cases hv : v ∈ b.blockedList x <;> simp [hv, setList_blockedList]
      · by_cases hv : v ∈ b.blockedList next <;> simp [hv, hx, setList_blockedList]

-- What freeing the list of `v` does to the marks.
structure Drained (v : V) (b b' : Blocking V) : Prop where
  shrinks : ∀ x, b'.blocked x = true → b.blocked x = true
  sub : ∀ x, b'.blockedList x ⊆ b.blockedList x
  kept : ∀ x, x ≠ v → b'.blocked x = b.blocked x → b'.blockedList x = b.blockedList x
  freed : ∀ x, x = v ∨ (b.blocked x = true ∧ b'.blocked x = false) →
    b'.blockedList x = [] ∧ ∀ y ∈ b.blockedList x, b'.blocked y = false
  spared : ∀ safe : Set V, v ∉ safe → (∀ x ∉ safe, ∀ y ∈ b.blockedList x, y ∉ safe) →
    ∀ x ∈ safe, b.blocked x = true → b'.blocked x = true

omit [DecidableEq V] in
theorem Drained.refl_of_nil {v : V} {b : Blocking V} (h : b.blockedList v = []) :
    Drained v b b where
  shrinks _ hx := hx
  sub _ := List.Subset.refl _
  kept _ _ _ := rfl
  freed x hx := by
    rcases hx with rfl | ⟨ht, hf⟩
    · simp [h]
    · simp [ht] at hf
  spared _ _ _ _ _ hx := hx

theorem Drained.skip {v dependent : V} {rest : List V} {b b' : Blocking V}
    (hl : b.blockedList v = dependent :: rest) (hd : b.blocked dependent = false)
    (h : Drained v (b.setList v rest) b') : Drained v b b' where
  shrinks := h.shrinks
  sub x := by
    have hs := h.sub x
    rw [setList_blockedList] at hs
    split_ifs at hs with hx
    · rw [hx, hl]
      exact fun y hy => List.mem_cons_of_mem _ (hs (hx ▸ hy))
    · exact hs
  kept x hx hb := by
    rw [h.kept x hx hb, setList_blockedList, if_neg hx]
  freed x hx := by
    obtain ⟨he, hy⟩ := h.freed x hx
    refine ⟨he, fun y hm => ?_⟩
    rw [setList_blockedList] at hy
    split_ifs at hy with hxv
    · rw [hxv, hl] at hm
      rcases List.mem_cons.mp hm with rfl | hm
      · exact Bool.eq_false_iff.mpr fun ht => by
          have := h.shrinks y ht
          simp [hd] at this
      · exact hy y hm
    · exact hy y hm
  spared safe hv hsafe := by
    apply h.spared safe hv
    intro x hx y hy
    rw [setList_blockedList] at hy
    split_ifs at hy with hxv
    · exact hsafe v hv y (hl ▸ List.mem_cons_of_mem _ hy)
    · exact hsafe x hx y hy

-- What freeing the last entry of the list of `v` does to the marks, when the
-- entry is blocked.
structure Popped (v dependent : V) (rest : List V) (b b' : Blocking V) : Prop where
  shrinks : ∀ x, b'.blocked x = true → x ≠ dependent ∧ b.blocked x = true
  sub : ∀ x, b'.blockedList x ⊆ b.blockedList x
  rest : b'.blockedList v = rest
  kept : ∀ x, x ≠ v → b'.blocked x = b.blocked x → b'.blockedList x = b.blockedList x
  freed : ∀ x, x ≠ v → b.blocked x = true → b'.blocked x = false →
    b'.blockedList x = [] ∧ ∀ y ∈ b.blockedList x, b'.blocked y = false
  spared : ∀ safe : Set V, v ∉ safe → (∀ x ∉ safe, ∀ y ∈ b.blockedList x, y ∉ safe) →
    ∀ x ∈ safe, b.blocked x = true → b'.blocked x = true

theorem Drained.popped {v dependent : V} {rest : List V} {b b' : Blocking V}
    (hv : b.blocked v = false) (hl : b.blockedList v = dependent :: rest)
    (hd : b.blocked dependent = true)
    (h : Drained dependent ((b.setList v rest).mark dependent false) b') :
    Popped v dependent rest b b' := by
  have hne : v ≠ dependent := by rintro rfl; simp [hd] at hv
  have hlist : ∀ x, ((b.setList v rest).mark dependent false).blockedList x =
      if x = v then rest else b.blockedList x := fun x => setList_blockedList b v rest x
  have hmark : ∀ x, ((b.setList v rest).mark dependent false).blocked x =
      if x = dependent then false else b.blocked x := fun x => mark_blocked _ _ _ _
  have hsub : ∀ x, ∀ y ∈ (if x = v then rest else b.blockedList x), y ∈ b.blockedList x := by
    intro x y hy
    split_ifs at hy with he
    · rw [he, hl]
      exact List.mem_cons_of_mem _ hy
    · exact hy
  have hshrinks : ∀ x, b'.blocked x = true → x ≠ dependent ∧ b.blocked x = true := by
    intro x hx
    have := h.shrinks x hx
    rw [hmark] at this
    split_ifs at this with he
    exact ⟨he, this⟩
  have hdep : b'.blocked dependent = false :=
    Bool.eq_false_iff.mpr fun ht => (hshrinks dependent ht).1 rfl
  have hv' : b'.blocked v = false :=
    Bool.eq_false_iff.mpr fun ht => by simp [(hshrinks v ht).2] at hv
  refine ⟨hshrinks, fun x y hy => hsub x y (hlist x ▸ h.sub x hy), ?_, ?_, ?_, ?_⟩
  · rw [h.kept v hne (by rw [hv', hmark, if_neg hne, hv]), hlist, if_pos rfl]
  · intro x hx hb
    have hxd : x ≠ dependent := by rintro rfl; rw [hdep, hd] at hb; cases hb
    rw [h.kept x hxd (by rw [hb, hmark, if_neg hxd]), hlist, if_neg hx]
  · intro x hx hbx hfx
    have hcase : x = dependent ∨
        (((b.setList v rest).mark dependent false).blocked x = true ∧ b'.blocked x = false) := by
      by_cases hxd : x = dependent
      · exact Or.inl hxd
      · exact Or.inr ⟨by rw [hmark, if_neg hxd, hbx], hfx⟩
    obtain ⟨he, hy⟩ := h.freed x hcase
    exact ⟨he, fun y hm => hy y (by rw [hlist, if_neg hx]; exact hm)⟩
  · intro safe hvs hsafe x hx hbx
    have hds : dependent ∉ safe := hsafe v hvs dependent (by simp [hl])
    have hxd : x ≠ dependent := fun he => hds (he ▸ hx)
    apply h.spared safe hds _ x hx (by rw [hmark, if_neg hxd, hbx])
    intro u hu y hy
    exact hsafe u hu y (hsub u y (hlist u ▸ hy))

-- Freeing the last entry of the list first, and then the rest of the list.
omit [DecidableEq V] in
theorem Popped.drained {v dependent : V} {rest : List V} {b b₁ b₂ : Blocking V}
    (hl : b.blockedList v = dependent :: rest) (h₁ : Popped v dependent rest b b₁)
    (h₂ : Drained v b₁ b₂) : Drained v b b₂ := by
  have hfalse : ∀ x, b₁.blocked x = false → b₂.blocked x = false := fun x hx =>
    Bool.eq_false_iff.mpr fun ht => by simp [h₂.shrinks x ht] at hx
  refine ⟨fun x hx => (h₁.shrinks x (h₂.shrinks x hx)).2, fun x y hy => h₁.sub x (h₂.sub x hy),
    ?_, ?_, ?_⟩
  · intro x hx hb
    have hb₁ : b₁.blocked x = b.blocked x := by
      cases hbx : b.blocked x with
      | true => exact h₂.shrinks x (by rw [hb, hbx])
      | false => exact Bool.eq_false_iff.mpr fun ht => by simp [(h₁.shrinks x ht).2] at hbx
    rw [h₂.kept x hx (by rw [hb, hb₁]), h₁.kept x hx hb₁]
  · intro x hx
    by_cases hxv : x = v
    · subst hxv
      obtain ⟨he, hy⟩ := h₂.freed x (Or.inl rfl)
      refine ⟨he, fun y hm => ?_⟩
      rw [hl] at hm
      rcases List.mem_cons.mp hm with rfl | hm
      · exact hfalse y (Bool.eq_false_iff.mpr fun ht => (h₁.shrinks y ht).1 rfl)
      · exact hy y (h₁.rest.symm ▸ hm)
    · obtain ⟨hbx, hfx⟩ := hx.resolve_left hxv
      cases hb₁ : b₁.blocked x with
      | true =>
          obtain ⟨he, hy⟩ := h₂.freed x (Or.inr ⟨hb₁, hfx⟩)
          exact ⟨he, fun y hm => hy y (h₁.kept x hxv (hb₁.trans hbx.symm) ▸ hm)⟩
      | false =>
          obtain ⟨he, hy⟩ := h₁.freed x hxv hbx hb₁
          exact ⟨by rw [h₂.kept x hxv (by rw [hfx, hb₁]), he], fun y hm => hfalse y (hy y hm)⟩
  · intro safe hvs hsafe x hx hbx
    exact h₂.spared safe hvs (fun u hu y hy => hsafe u hu y (h₁.sub u hy)) x hx
      (h₁.spared safe hvs hsafe x hx hbx)

theorem pending_setList_lt (verts : List V) (b : Blocking V) (v : V) (hv : v ∈ verts)
    (dependent : V) (rest : List V) (hl : b.blockedList v = dependent :: rest) :
    (b.setList v rest).pending verts < b.pending verts := by
  apply List.sum_lt_sum
  · intro x _
    rw [setList_blockedList]
    split_ifs with hx
    · rw [hx, hl]; simp
    · exact le_rfl
  · exact ⟨v, hv, by rw [setList_blockedList, if_pos rfl, hl]; simp⟩

-- Each step removes an entry, so the fuel is a proved bound.
theorem drain_spec (verts : List V) (fuel : Nat) (v : V) (b : Blocking V) (hv : v ∈ verts)
    (hlists : ∀ x, ∀ y ∈ b.blockedList x, y ∈ verts) (hb : b.blocked v = false)
    (hfuel : b.pending verts < fuel) :
    ∃ b', drain fuel v b = some b' ∧ Drained v b b' ∧ b'.pending verts ≤ b.pending verts := by
  induction fuel generalizing v b with
  | zero => omega
  | succ fuel ih =>
      cases hl : b.blockedList v with
      | nil => exact ⟨b, by simp [drain, hl], Drained.refl_of_nil hl, le_rfl⟩
      | cons dependent rest =>
          have hlt := pending_setList_lt verts b v hv dependent rest hl
          have hlists' : ∀ x, ∀ y ∈ (b.setList v rest).blockedList x, y ∈ verts := by
            intro x y hy
            rw [setList_blockedList] at hy
            split_ifs at hy with hx
            · exact hlists v y (hl ▸ List.mem_cons_of_mem _ hy)
            · exact hlists x y hy
          cases hd : b.blocked dependent with
          | false =>
              obtain ⟨b', he, hdr, hp⟩ := ih v (b.setList v rest) hv hlists' hb (by omega)
              exact ⟨b', by simp [drain, hl, hd, he], Drained.skip hl hd hdr, by omega⟩
          | true =>
              obtain ⟨b₁, he₁, hdr₁, hp₁⟩ := ih dependent ((b.setList v rest).mark dependent false)
                (hlists v dependent (by simp [hl])) hlists' (by simp)
                (show (b.setList v rest).pending verts < fuel by omega)
              have hp₁' : b₁.pending verts ≤ (b.setList v rest).pending verts := hp₁
              have hpop := hdr₁.popped hb hl hd
              have hv₁ : b₁.blocked v = false := Bool.eq_false_iff.mpr fun ht => by
                simp [(hpop.shrinks v ht).2] at hb
              obtain ⟨b₂, he₂, hdr₂, hp₂⟩ := ih v b₁ hv
                (fun x y hy => hlists' x y (hdr₁.sub x hy)) hv₁ (by omega)
              exact ⟨b₂, by simp [drain, hl, hd, he₁, he₂], hpop.drained hl hdr₂, by omega⟩

theorem unblock_spec (verts : List V) (v : V) (b : Blocking V) (hv : v ∈ verts)
    (hlists : ∀ x, ∀ y ∈ b.blockedList x, y ∈ verts) :
    ∃ b', b.unblock verts v = some b' ∧ Drained v (b.mark v false) b' := by
  obtain ⟨b', he, hd, _⟩ := drain_spec verts (b.pending verts + 1) v (b.mark v false) hv hlists
    (by simp) (Nat.lt_succ_self _)
  exact ⟨b', he, hd⟩

end Blocking

end CycleEnum.Enumeration
