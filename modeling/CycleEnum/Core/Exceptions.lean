import CycleEnum.Core.HistogramCsv
import CycleEnum.Core.Merge
import CycleEnum.Core.Process

namespace CycleEnum

open Process (Settles)

-- The errors that the library throws. The others only mark what a model could not do.
def Error.IsException : Error → Prop
  | unfinished | undefined => False
  | _ => True

-- A value of a kind, or an exception.
abbrev Throws {α : Type} (kind : α → Prop) (result : Except Error α) : Prop :=
  Settles kind Error.IsException result

-- A result whose value says enough of itself.
theorem throws_self {α : Type} {result : Except Error α}
    (h : ∀ error, result = .error error → error.IsException) :
    Throws (fun value => result = .ok value) result := by
  cases result with
  | ok value => rfl
  | error error => exact h error rfl

-- A check that fails with an exception.
theorem throws_check {α : Type} {c : Prop} [Decidable c] {error : Error} {value : α}
    (h : error.IsException) :
    Throws (fun _ => True) (if c then .error error else .ok value : Except Error α) := by
  split_ifs
  · exact h
  · trivial

namespace CycleHistogram

theorem increment_throws (histogram : CycleHistogram) (length count : Nat) :
    Throws (fun _ => True) (histogram.increment length count) := by
  have hlength : Throws (fun _ => True) (ensure_valid_length length) := throws_check trivial
  have hsafe : Throws (fun _ => True) (ensure_addition_safe (histogram.count length) count) :=
    throws_check trivial
  refine hlength.bind fun _ _ => ?_
  split_ifs
  · trivial
  · exact hsafe.bind fun _ _ => trivial

theorem merge_all_throws (locals : List CycleHistogram) : Throws (fun _ => True) (merge_all locals) :=
  Settles.foldlM (fun _ _ _ => Settles.foldlM
    (fun histogram entry _ => histogram.increment_throws entry.1 entry.2) trivial) trivial

theorem record_throws (events : List (Nat × Nat)) :
    Throws (fun histogram => (∅ : CycleHistogram).record events = .ok histogram)
      ((∅ : CycleHistogram).record events) :=
  (Settles.foldlM (fun histogram event _ => increment_throws histogram event.1 event.2)
    trivial).of_ok fun _ => id

theorem to_csv_throws (histogram : CycleHistogram) :
    Throws (fun text => histogram.to_csv true = .ok text) (histogram.to_csv true) := by
  refine throws_self fun error herror => ?_
  rw [to_csv_eq] at herror
  split_ifs at herror
  obtain rfl := Except.error.inj herror
  trivial

end CycleHistogram

end CycleEnum
