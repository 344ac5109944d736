import Mathlib.Data.List.Basic

namespace CycleEnum.Enumeration

variable {V σ α : Type}

-- The invariant rule for a loop over `row`: `holds before state` speaks of the
-- part of the row already visited.
theorem foldlM_spec {m : Type → Type} [Monad m] [LawfulMonad m] (step : σ → V → m σ)
    (row : List V) (holds : List V → σ → Prop)
    (hstep : ∀ before next after state, row = before ++ next :: after → holds before state →
      ∃ state', step state next = pure state' ∧ holds (before ++ [next]) state')
    (state : σ) (hstart : holds [] state) :
    ∃ state', row.foldlM step state = pure state' ∧ holds row state' := by
  suffices hloop : ∀ after before state, row = before ++ after → holds before state →
      ∃ state', after.foldlM step state = pure state' ∧ holds row state' from
    hloop row [] state rfl hstart
  intro after
  induction after with
  | nil =>
      intro before state hsplit h
      exact ⟨state, rfl, by simpa [hsplit] using h⟩
  | cons next after ih =>
      intro before state hsplit h
      obtain ⟨state₁, he₁, h₁⟩ := hstep before next after state hsplit h
      obtain ⟨state₂, he₂, h₂⟩ := ih (before ++ [next]) state₁ (by simp [hsplit]) h₁
      exact ⟨state₂, by rw [List.foldlM_cons, he₁, pure_bind, he₂], h₂⟩

-- A loop that simulates another one step by step does so in all the states it passes.
theorem scanlM_simulates {m : Type → Type} [Monad m] [LawfulMonad m] {τ : Type}
    {step : σ → V → m σ} {abstract : τ → V → τ} {simulates : σ → τ → Prop} (row : List V)
    (hstep : ∀ state t next, simulates state t →
      ∃ state', step state next = pure state' ∧ simulates state' (abstract t next))
    {state : σ} {t : τ} (h : simulates state t) :
    ∃ states, row.scanlM step state = pure states ∧
      List.Forall₂ simulates states (row.scanl abstract t) := by
  induction row generalizing state t with
  | nil =>
      rw [List.scanlM_nil, List.scanl_nil]
      exact ⟨[state], rfl, .cons h .nil⟩
  | cons next row ih =>
      obtain ⟨state', hnext, h'⟩ := hstep state t next h
      obtain ⟨states, hstates, hall⟩ := ih h'
      rw [List.scanlM_cons, hnext, pure_bind, hstates, pure_bind, List.scanl_cons]
      exact ⟨state :: states, rfl, .cons h hall⟩

-- Some round of a loop over `row` starts in a state of the given kind.
def SomeRound (step : σ → V → Option σ) (kind : V → σ → Prop) : List V → σ → Prop
  | [], _ => False
  | next :: rest, state =>
      kind next state ∨ ∃ state', step state next = some state' ∧ SomeRound step kind rest state'

instance decidableSomeRound (step : σ → V → Option σ) (kind : V → σ → Prop)
    [∀ next state, Decidable (kind next state)] :
    ∀ row state, Decidable (SomeRound step kind row state)
  | [], _ => isFalse id
  | next :: rest, state =>
      match h : step state next with
      | none => decidable_of_iff (kind next state) (by simp [SomeRound, h])
      | some state' =>
          have := decidableSomeRound step kind rest state'
          decidable_of_iff (kind next state ∨ SomeRound step kind rest state')
            (by simp [SomeRound, h])

section FirstSuccess

variable {m : Type → Type} [Monad m]

-- A loop over `row` that passes a state on and stops at the first success.
def firstSuccess (visit : V → σ → m (Option α × σ)) : List V → σ → m (Option α × σ)
  | [], state => pure (none, state)
  | next :: rest, state => do
      let (result, state) ← visit next state
      match result with
      | some a => pure (some a, state)
      | none => firstSuccess visit rest state

-- The invariant rule for such loops: `holds before state` before every step, and
-- `goal a state` at the step that succeeds.
theorem firstSuccess_spec [LawfulMonad m] (visit : V → σ → m (Option α × σ)) (row : List V)
    (holds : List V → σ → Prop) (goal : α → σ → Prop)
    (hstep : ∀ before next after state, row = before ++ next :: after → holds before state →
      ∃ result state', visit next state = pure (result, state') ∧
        (∀ a ∈ result, goal a state') ∧ (result = none → holds (before ++ [next]) state'))
    (state : σ) (hstart : holds [] state) :
    ∃ result state', firstSuccess visit row state = pure (result, state') ∧
      (∀ a ∈ result, goal a state') ∧ (result = none → holds row state') := by
  suffices hloop : ∀ after before state, row = before ++ after → holds before state →
      ∃ result state', firstSuccess visit after state = pure (result, state') ∧
        (∀ a ∈ result, goal a state') ∧ (result = none → holds row state') from
    hloop row [] state rfl hstart
  intro after
  induction after with
  | nil =>
      intro before state hsplit h
      exact ⟨none, state, rfl, by simp, fun _ => by simpa [hsplit] using h⟩
  | cons next after ih =>
      intro before state hsplit h
      obtain ⟨result, state', he, hgoal, hnone⟩ := hstep before next after state hsplit h
      cases result with
      | some a => exact ⟨some a, state', by rw [firstSuccess, he, pure_bind], hgoal, by simp⟩
      | none =>
          obtain ⟨r, s, hr, hg, hn⟩ := ih (before ++ [next]) state' (by simp [hsplit]) (hnone rfl)
          exact ⟨r, s, by rw [firstSuccess, he, pure_bind]; exact hr, hg, hn⟩

end FirstSuccess

end CycleEnum.Enumeration
