import CycleEnum.Core.Search
import CycleEnum.Core.VertexLoop

namespace CycleEnum.Search

variable {S α β γ : Type}

-- A search with counters that goes the same way whatever the counters and the
-- histogram hold: its events and its result are fixed, and `shift` adds what the
-- counters held to the counters of the result.
def Counting (shift : S → β → β) (search : S → Search β) : Prop :=
  ∃ events result, ∀ stats histogram, search stats histogram =
    (histogram.record events).bind fun histogram =>
      (result : Except Error β).map fun b => (shift stats b, histogram)

-- A search that forgets the other one's additional data as it goes.
def Erases (erase : α → β) (search : Search α) (plain : Search β) : Prop :=
  ∀ histogram, (search histogram).map (fun (a, histogram) => (erase a, histogram)) = plain histogram

section Counting

variable {shift : S → β → β}

theorem counting_pure (b : β) : Counting shift fun stats => pure (shift stats b) :=
  ⟨[], .ok b, fun _ _ => rfl⟩

theorem counting_unfinished : Counting shift fun _ => finished none :=
  ⟨[], .error .unfinished, fun _ _ => rfl⟩

theorem Counting.ofExcept {result : Except Error α} {next : S → α → Search β}
    (h : ∀ a, result = .ok a → Counting shift fun stats => next stats a) :
    Counting shift fun stats => Search.ofExcept result >>= next stats := by
  cases result with
  | error error => exact ⟨[], .error error, fun _ _ => rfl⟩
  | ok a =>
      obtain ⟨events, result, hnext⟩ := h a rfl
      exact ⟨events, result, hnext⟩

theorem Counting.increment {length count : Nat} {next : S → Search β}
    (h : Counting shift next) :
    Counting shift fun stats => Search.increment length count >>= fun _ => next stats := by
  obtain ⟨events, result, hnext⟩ := h
  refine ⟨(length, count) :: events, result, fun stats histogram => ?_⟩
  change ((histogram.increment length count).map ((), ·)).bind (fun p => next stats p.2) = _
  rw [CycleHistogram.record_cons]
  cases hi : histogram.increment length count with
  | error error => rfl
  | ok middle => exact hnext stats middle

theorem Counting.bind {place : S → α → α} {search : S → Search α} {next : S → α → Search β}
    (h : Counting place search)
    (h' : ∀ a, Counting shift fun stats => next stats (place stats a)) :
    Counting shift fun stats => search stats >>= next stats := by
  obtain ⟨events, result, hsearch⟩ := h
  cases result with
  | error error =>
      refine ⟨events, .error error, fun stats histogram => ?_⟩
      change (search stats histogram).bind (fun p => next stats p.1 p.2) = _
      rw [hsearch]
      cases histogram.record events with
      | error _ => rfl
      | ok middle => rfl
  | ok a =>
      obtain ⟨more, result', hnext⟩ := h' a
      refine ⟨events ++ more, result', fun stats histogram => ?_⟩
      change (search stats histogram).bind (fun p => next stats p.1 p.2) = _
      rw [hsearch, CycleHistogram.record_append]
      cases histogram.record events with
      | error _ => rfl
      | ok middle => exact hnext stats middle

theorem Counting.foldlM {row : List α} {visit : β → α → Search β}
    (h : ∀ x ∈ row, ∀ b, Counting shift fun stats => visit (shift stats b) x) (b : β) :
    Counting shift fun stats => row.foldlM visit (shift stats b) := by
  induction row generalizing b with
  | nil => exact counting_pure b
  | cons x row ih =>
      simp only [List.foldlM_cons]
      exact (h x (by simp) b).bind fun b' =>
        ih (fun y hy => h y (List.mem_cons_of_mem _ hy)) b'

end Counting

section Erases

theorem erases_pure (erase : α → β) (a : α) : Erases erase (pure a) (pure (erase a)) := fun _ => rfl

theorem erases_unfinished (erase : α → β) : Erases erase (finished none) (finished none) :=
  fun _ => rfl

theorem Erases.bind {δ : Type} {erase : α → β} {erase' : γ → δ} {search : Search α}
    {plain : Search β} {next : α → Search γ} {plain_next : β → Search δ}
    (h : Erases erase search plain) (h' : ∀ a, Erases erase' (next a) (plain_next (erase a))) :
    Erases erase' (search >>= next) (plain >>= plain_next) := fun histogram => by
  change ((search histogram).bind fun p => next p.1 p.2).map _ =
    (plain histogram).bind fun p => plain_next p.1 p.2
  rw [← h histogram]
  cases search histogram with
  | error _ => rfl
  | ok p => exact h' p.1 p.2

-- A step that both searches take.
theorem Erases.same {δ : Type} {erase : γ → δ} (search : Search α) {next : α → Search γ}
    {plain : α → Search δ} (h : ∀ a, Erases erase (next a) (plain a)) :
    Erases erase (search >>= next) (search >>= plain) := fun histogram => by
  change ((search histogram).bind fun p => next p.1 p.2).map _ =
    (search histogram).bind fun p => plain p.1 p.2
  cases search histogram with
  | error _ => rfl
  | ok p => exact h p.1 p.2

theorem Erases.root_loop {erase : α → β} {vertex_count : Nat} {visit : α → Nat → Search α}
    {plain : β → Nat → Search β} (h : ∀ root a, Erases erase (visit a root) (plain (erase a) root))
    (fuel root : Nat) (a : α) : Erases erase (CycleEnum.root_loop vertex_count visit fuel root a)
      (CycleEnum.root_loop vertex_count plain fuel root (erase a)) := by
  induction fuel generalizing root a with
  | zero => exact fun _ => rfl
  | succ fuel ih =>
      rw [CycleEnum.root_loop, CycleEnum.root_loop]
      split_ifs
      · exact (h root a).bind fun a' => ih (next_id root) a'
      · exact erases_pure erase a

theorem Erases.foldlM {erase : α → β} {row : List γ} {visit : α → γ → Search α}
    {plain : β → γ → Search β} (h : ∀ x ∈ row, ∀ a, Erases erase (visit a x) (plain (erase a) x))
    (a : α) : Erases erase (row.foldlM visit a) (row.foldlM plain (erase a)) := by
  induction row generalizing a with
  | nil => exact erases_pure erase a
  | cons x row ih =>
      rw [List.foldlM_cons, List.foldlM_cons]
      exact (h x (by simp) a).bind fun a' => ih (fun y hy => h y (List.mem_cons_of_mem _ hy)) a'

end Erases

end CycleEnum.Search
