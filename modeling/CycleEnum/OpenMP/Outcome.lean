import CycleEnum.Core.Types

namespace CycleEnum.OpenMP

-- What a call comes to. An exception that leaves a parallel region does not reach
-- the caller, it ends the program.
inductive Outcome (α : Type) where
  | returned (value : α)
  | threw (error : Error)
  | threw_runtime_error (what : String)
  | terminated
deriving DecidableEq, Repr

namespace Outcome

variable {α β : Type}

def bind (outcome : Outcome α) (next : α → Outcome β) : Outcome β :=
  match outcome with
  | returned value => next value
  | threw error => threw error
  | threw_runtime_error what => threw_runtime_error what
  | terminated => terminated

instance : Monad Outcome where
  pure := returned
  bind := bind

-- Code outside the parallel regions.
def serial (result : Except Error α) : Outcome α :=
  match result with
  | .ok value => returned value
  | .error error => threw error

-- The body of a parallel region.
def parallel (result : Except Error α) : Outcome α :=
  match result with
  | .ok value => returned value
  | .error _ => terminated

@[simp] theorem returned_bind (value : α) (next : α → Outcome β) :
    (returned value >>= next) = next value := rfl

@[simp] theorem threw_bind (error : Error) (next : α → Outcome β) :
    (threw error >>= next) = threw error := rfl

@[simp] theorem terminated_bind (next : α → Outcome β) :
    (terminated >>= next) = terminated := rfl

@[simp] theorem serial_ok (value : α) : serial (.ok value) = returned value := rfl

@[simp] theorem serial_error (error : Error) :
    (serial (.error error) : Outcome α) = threw error := rfl

@[simp] theorem parallel_ok (value : α) : parallel (.ok value) = returned value := rfl

@[simp] theorem parallel_error (error : Error) :
    (parallel (.error error) : Outcome α) = terminated := rfl

theorem serial_eq_returned {result : Except Error α} {value : α}
    (h : serial result = returned value) : result = .ok value := by
  cases result with
  | ok a => exact congrArg Except.ok (Outcome.returned.inj h)
  | error error => cases h

theorem serial_map (result : Except Error α) (f : α → β) :
    (serial result).bind (fun value => returned (f value)) = serial (result.map f) := by
  cases result with
  | error error => rfl
  | ok value => rfl

theorem serial_eq_returned_iff {result : Except Error α} {value : α} :
    serial result = returned value ↔ result = .ok value := by
  constructor
  · exact serial_eq_returned
  · intro hok
    rw [hok]
    rfl

end Outcome

-- `available` is whether the build has OpenMP.
def resolve_thread_count (available : Bool) (requested_threads : Int) : Outcome Nat :=
  if requested_threads ≤ 0 then
    .threw (.invalid_argument "OpenMP thread count must be positive")
  else if !available && requested_threads > 1 then
    .threw_runtime_error "OpenMP support is not available in this build"
  else .returned requested_threads.toNat

theorem resolve_thread_count_eq {available : Bool} {requested_threads : Int}
    (h : 1 ≤ requested_threads) (ha : available = true ∨ requested_threads = 1) :
    resolve_thread_count available requested_threads = .returned requested_threads.toNat := by
  rw [resolve_thread_count, if_neg (by omega), if_neg]
  rcases ha with rfl | rfl
  · simp
  · simp

end CycleEnum.OpenMP
