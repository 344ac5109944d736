import Mathlib.Data.List.Basic
import Mathlib.Algebra.Order.Ring.Int

namespace CycleEnum

-- Vertex ids, edge ids, offsets, lengths and counts are natural numbers here,
-- external ids and timestamps are integers. Where the source checks a bound or
-- narrows a value, the model does so explicitly.
def MAX_EDGE_ID : Nat := 2 ^ 32 - 1
def MAX_TIMESTAMP : Int := 2 ^ 63 - 1

-- The exceptions of the library with their texts. Two are none of them:
-- `unfinished` marks a search of the model whose recursion bound ran out,
-- `undefined` a signed overflow, of which the language says nothing.
inductive Error where
  | invalid_argument (what : String)
  | overflow_error (what : String)
  | out_of_range (what : String)
  | logic_error (what : String)
  | runtime_error (what : String)
  | unfinished
  | undefined
deriving DecidableEq, Repr

-- The texts of an overflow of a count.
def CountOverflow (what : String) : Prop :=
  what = "cycle histogram count overflow" ∨ what = "temporal path count overflow"

-- A result of the given kind, or a count that overflows.
def Gives {α : Type} (result : Except Error α) (kind : α → Prop) : Prop :=
  (∃ what, CountOverflow what ∧ result = .error (.overflow_error what)) ∨
    ∃ a, result = .ok a ∧ kind a

theorem gives_ok {α : Type} {a : α} {kind : α → Prop} (h : kind a) : Gives (.ok a) kind :=
  Or.inr ⟨a, rfl, h⟩

theorem Gives.bind {α β : Type} {result : Except Error α} {next : α → Except Error β}
    {kind : α → Prop} {kind' : β → Prop} (h : Gives result kind)
    (h' : ∀ a, kind a → Gives (next a) kind') : Gives (result >>= next) kind' := by
  rcases h with ⟨what, hc, rfl⟩ | ⟨a, rfl, ha⟩
  · exact Or.inl ⟨what, hc, rfl⟩
  · exact h' a ha

-- A computation that ends well has ended well so far.
theorem bind_ok {ε α β : Type} {result : Except ε α} {next : α → Except ε β} {b : β}
    (h : result >>= next = .ok b) : ∃ a, result = .ok a ∧ next a = .ok b := by
  cases result with
  | error error => cases h
  | ok a => exact ⟨a, rfl, h⟩

-- What every step of a loop keeps holds at its end.
theorem foldlM_keeps {ε α σ : Type} {holds : σ → Prop} {step : σ → α → Except ε σ} {items : List α}
    {state last : σ} (hstep : ∀ state item next, holds state → step state item = .ok next → holds next)
    (hstart : holds state) (h : items.foldlM step state = .ok last) : holds last := by
  induction items generalizing state with
  | nil =>
      obtain rfl := Except.ok.inj h
      exact hstart
  | cons item items ih =>
      rw [List.foldlM_cons] at h
      obtain ⟨next, hnext, hrest⟩ := bind_ok h
      exact ih (hstep state item next hstart hnext) hrest

theorem ok_bind {ε α β : Type} {result : Except ε α} {next : α → Except ε β} {a : α}
    (h : result = .ok a) : result >>= next = next a := by
  rw [h]
  rfl

-- Per-vertex flags, `std::vector<unsigned char>` in the source.
abbrev Flags := Nat → Bool

def Flags.none : Flags := fun _ => false

def Flags.set (flags : Flags) (vertex : Nat) (value : Bool) : Flags :=
  Function.update flags vertex value

theorem Flags.set_apply (flags : Flags) (vertex : Nat) (value : Bool) (x : Nat) :
    flags.set vertex value x = if x = vertex then value else flags x := by
  simp [Flags.set, Function.update_apply]

@[simp] theorem Flags.set_self (flags : Flags) (vertex : Nat) (value : Bool) :
    flags.set vertex value vertex = value := by simp [Flags.set]

-- Setting a flag on the way down and clearing it on the way up changes nothing.
theorem Flags.set_restore (flags : Flags) (vertex : Nat) (h : flags vertex = false) :
    (flags.set vertex true).set vertex false = flags := by
  rw [← h]
  simp [Flags.set]

end CycleEnum
