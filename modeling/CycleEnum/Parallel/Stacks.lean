import Mathlib.Data.List.Basic
import Mathlib.Tactic.Common
import Mathlib.Tactic.Linarith

namespace CycleEnum.Parallel

section Slots

variable {α β : Type}

-- A stack in an array, its bottom at `base`. The list has the top first.
def stack_at (array : Nat → α) (base : Nat) : Nat → List α
  | 0 => []
  | depth + 1 => array (base + depth) :: stack_at array base depth

@[simp] theorem stack_at_zero (array : Nat → α) (base : Nat) : stack_at array base 0 = [] := rfl

@[simp] theorem stack_at_length (array : Nat → α) (base depth : Nat) :
    (stack_at array base depth).length = depth := by
  induction depth with
  | zero => rfl
  | succ depth ih => rw [stack_at, List.length_cons, ih]

theorem stack_at_congr {array array' : Nat → α} {base depth : Nat}
    (h : ∀ k < depth, array' (base + k) = array (base + k)) :
    stack_at array' base depth = stack_at array base depth := by
  induction depth with
  | zero => rfl
  | succ depth ih =>
      rw [stack_at, stack_at, h depth (by omega), ih fun k hk => h k (by omega)]

theorem stack_at_update {array : Nat → α} {base depth slot : Nat} (h : base + depth ≤ slot) (a : α) :
    stack_at (Function.update array slot a) base depth = stack_at array base depth :=
  stack_at_congr fun k hk => Function.update_of_ne (by omega) _ _

theorem stack_at_update_top (array : Nat → α) (base depth : Nat) (a : α) :
    stack_at (Function.update array (base + depth) a) base (depth + 1) =
      a :: stack_at array base depth := by
  rw [stack_at, Function.update_self, stack_at_update (Nat.le_refl _)]

-- The bottom of a stack below the rest.
theorem stack_at_bottom (array : Nat → α) (base depth : Nat) :
    stack_at array base (depth + 1) = stack_at array (base + 1) depth ++ [array base] := by
  induction depth with
  | zero => rfl
  | succ depth ih =>
      rw [stack_at, ih, stack_at, List.cons_append]
      congr 2
      omega

theorem stack_at_map (f : α → β) (array : Nat → α) (base depth : Nat) :
    (stack_at array base depth).map f = stack_at (fun slot => f (array slot)) base depth := by
  induction depth with
  | zero => rfl
  | succ depth ih => rw [stack_at, stack_at, List.map_cons, ih]

theorem mem_stack_at {array : Nat → α} {base depth : Nat} {a : α} :
    a ∈ stack_at array base depth ↔ ∃ k < depth, array (base + k) = a := by
  induction depth with
  | zero => simp
  | succ depth ih =>
      rw [stack_at, List.mem_cons, ih]
      constructor
      · rintro (rfl | ⟨k, hk, rfl⟩)
        · exact ⟨depth, by omega, rfl⟩
        · exact ⟨k, by omega, rfl⟩
      · rintro ⟨k, hk, rfl⟩
        rcases Nat.lt_succ_iff_lt_or_eq.mp hk with hk | rfl
        · exact Or.inr ⟨k, hk, rfl⟩
        · exact Or.inl rfl

end Slots

-- One move of a search that keeps its open frames on a stack.
inductive Move (F E : Type) where
  | pop
  | stay (top : F) (events : List E)
  | push (top child : F)

namespace Move

variable {F E : Type}

def apply (below : List F) : Move F E → List F
  | pop => below
  | stay top _ => top :: below
  | push top child => child :: top :: below

def events : Move F E → List E
  | pop => []
  | stay _ events => events
  | push _ _ => []

-- Every move uses up one of the moves a frame has left, and a new frame has at most
-- `most` of them. No stack grows past `limit` frames.
def Uses (left : F → Nat) (most limit : Nat) (top : F) (below : List F) : Move F E → Prop
  | pop => True
  | stay top' _ => left top' < left top
  | push top' child => left top' < left top ∧ left child ≤ most ∧ below.length + 1 < limit

end Move

section Work

variable {F E : Type}

-- The moves a stack has left at most: what lies above a frame is done before the
-- frame goes on.
def work (left : F → Nat) (most limit : Nat) : List F → Nat
  | [] => 0
  | top :: below =>
      (left top + 1) * (most + 2) ^ (limit - (below.length + 1)) + work left most limit below

variable {left : F → Nat} {most limit : Nat}

theorem work_apply_lt {top : F} {below : List F} {move : Move F E}
    (h : move.Uses left most limit top below) :
    work left most limit (move.apply below) < work left most limit (top :: below) := by
  have hpos : 0 < (most + 2) ^ (limit - (below.length + 1)) := Nat.pow_pos (by omega)
  cases move with
  | pop =>
      change work left most limit below < work left most limit (top :: below)
      rw [work]
      have : 0 < (left top + 1) * (most + 2) ^ (limit - (below.length + 1)) :=
        Nat.mul_pos (by omega) hpos
      omega
  | stay top' events =>
      change work left most limit (top' :: below) < _
      rw [work, work]
      have hlt : left top' + 1 < left top + 1 := Nat.succ_lt_succ h
      have := Nat.mul_lt_mul_of_pos_right hlt hpos
      omega
  | push top' child =>
      obtain ⟨hleft, hchild, hlimit⟩ := h
      change work left most limit (child :: top' :: below) < _
      rw [work, work, work, List.length_cons]
      have hexp : limit - (below.length + 1) = limit - (below.length + 1 + 1) + 1 := by omega
      rw [hexp, pow_succ]
      generalize hp : (most + 2) ^ (limit - (below.length + 1 + 1)) = p
      have hpos : 0 < p := hp ▸ Nat.pow_pos (by omega)
      have h₁ : (left child + 1) * p ≤ (most + 1) * p := Nat.mul_le_mul_right _ (by omega)
      have h₂ : (left top' + 2) * (p * (most + 2)) ≤ (left top + 1) * (p * (most + 2)) :=
        Nat.mul_le_mul_right _ (by omega)
      nlinarith

-- A single frame, as at the start of a search.
theorem work_single_le {top : F} (h : left top ≤ most) :
    work left most limit [top] ≤ (most + 1) * (most + 2) ^ (limit - 1) := by
  simp only [work, List.length_nil, Nat.add_zero, Nat.zero_add]
  exact Nat.mul_le_mul_right _ (by omega)

end Work

end CycleEnum.Parallel
