import CycleEnum.Cuda.RootSearch
import CycleEnum.Dynamic.EdgeTheorems
import CycleEnum.Dynamic.Rebuild

namespace CycleEnum.Dynamic

open CycleEnum.Cuda CycleEnum.Parallel

-- `static_cast<int>`
def to_int (value : Nat) : Int := (value : Int).bmod (2 ^ 32)

-- `static_cast<std::uint32_t>`
def to_uint32 (value : Nat) : Nat := value % 2 ^ 32

-- An `int` as a `std::size_t`.
def to_size (value : Int) : Nat := (value % 2 ^ 64).toNat

-- A read of the device's array of changes. Outside of it the read is undefined.
def change_at (changes : List EdgeChange) (index : Int) : Option EdgeChange :=
  if index < 0 then none else changes[index.toNat]?

-- The loop of `find_change`. All its values are of type `int`.
def find_change_between (changes : List EdgeChange) (source target : Nat) (low high : Int) :
    Except Error Int :=
  if low ≤ high then
    if low + high > INT_MAX then .error .undefined
    else
      let mid := (low + high) / 2
      match change_at changes mid with
      | none => .error .undefined
      | some change =>
          if change.source < source ∨ change.source = source ∧ change.target < target then
            find_change_between changes source target (mid + 1) high
          else if change.source > source ∨ change.source = source ∧ change.target > target then
            find_change_between changes source target low (mid - 1)
          else .ok mid
  else .ok (-1)
termination_by (high + 1 - low).toNat

def find_change (changes : List EdgeChange) (change_count : Int) (source target : Nat) :
    Except Error Int :=
  find_change_between changes source target 0 (change_count - 1)

-- The arrays that the work items share. Each item has its own part of the first three.
structure UpdatePools where
  path_pool : Nat → Nat
  cursor_pool : Nat → Nat
  visited_pool : Nat → Bool
  counts : Nat → Nat

-- What an item does that others could notice: it reads or writes a slot of the path and
-- cursor pools, or a slot of the visited pool, it counts a cycle, or it has undefined
-- behaviour.
inductive UpdateEvent where
  | frame (slot : Nat)
  | flag (slot : Nat)
  | counted (length : Nat)
  | undefined
deriving DecidableEq, Repr

def UpdateEvent.bin : UpdateEvent → Option Nat
  | counted length => some length
  | _ => none

inductive UpdateRegister where
  | asking
  | searching (change : EdgeChange) (depth : Nat)
deriving DecidableEq, Repr

namespace UpdatePools

def mark (pools : UpdatePools) (slot : Nat) (value : Bool) : UpdatePools :=
  { pools with visited_pool := Function.update pools.visited_pool slot value }

def advance (pools : UpdatePools) (slot cursor : Nat) : UpdatePools :=
  { pools with cursor_pool := Function.update pools.cursor_pool slot cursor }

def enter (pools : UpdatePools) (slot vertex cursor : Nat) : UpdatePools :=
  { pools with
    path_pool := Function.update pools.path_pool slot vertex
    cursor_pool := Function.update pools.cursor_pool slot cursor }

-- `atomicAdd(&counts[length], 1ULL)`
def count (pools : UpdatePools) (length : Nat) : UpdatePools :=
  { pools with counts := Function.update pools.counts length (wrap (pools.counts length + 1)) }

end UpdatePools

section Kernel

variable (offsets neighbors : List Nat) (changes : List EdgeChange) (change_count max_length : Int)
  (vertex_count : Nat)

-- One round of the loop `while (depth > 0)`.
def search_round (work : Int) (change : EdgeChange) (depth : Nat) (pools : UpdatePools) :
    Effect UpdateRegister UpdatePools UpdateEvent :=
  let path := wrap (work.toNat * to_size max_length)
  let visited := wrap (work.toNat * vertex_count)
  let frame := wrap (path + (depth - 1))
  let current := pools.path_pool frame
  let last := offsets.getD (next_id current) 0
  let cursor := pools.cursor_pool frame
  if cursor ≥ last then
    let flag := wrap (visited + current)
    ⟨some (.searching change (depth - 1)), pools.mark flag false, [.frame frame, .flag flag]⟩
  else
    let next := neighbors.getD cursor 0
    let flag := wrap (visited + next)
    let pools := pools.advance frame (cursor + 1)
    match find_change changes change_count current next with
    | .error _ => ⟨none, pools, [.frame frame, .undefined]⟩
    | .ok change_id =>
        if change_id ≥ 0 ∧ change_id < work then
          ⟨some (.searching change depth), pools, [.frame frame]⟩
        else if next = change.source then
          let length := depth + 1
          if length ≥ 2 ∧ (length : Int) ≤ max_length then
            ⟨some (.searching change depth), pools.count length, [.frame frame, .counted length]⟩
          else ⟨some (.searching change depth), pools, [.frame frame]⟩
        else if next = change.target then ⟨some (.searching change depth), pools, [.frame frame]⟩
        else if pools.visited_pool flag then
          ⟨some (.searching change depth), pools, [.frame frame, .flag flag]⟩
        else if ((depth + 1 : Nat) : Int) < max_length then
          let next_frame := wrap (path + depth)
          ⟨some (.searching change (depth + 1)),
            (pools.mark flag true).enter next_frame next (offsets.getD next 0),
            [.frame frame, .flag flag, .frame next_frame]⟩
        else ⟨some (.searching change depth), pools, [.frame frame, .flag flag]⟩

-- The search of an item starts at the target of its change.
def search_start (work : Int) (change : EdgeChange) (pools : UpdatePools) :
    Effect UpdateRegister UpdatePools UpdateEvent :=
  let path := wrap (work.toNat * to_size max_length)
  let visited := wrap (work.toNat * vertex_count)
  let source := wrap (visited + change.source)
  let target := wrap (visited + change.target)
  ⟨some (.searching change 1),
    ((pools.mark source true).mark target true).enter path change.target
      (offsets.getD change.target 0),
    [.flag source, .flag target, .frame path]⟩

def count_owned_cycles_kernel : Program UpdateRegister UpdatePools UpdateEvent :=
  fun thread register pools =>
    let work := to_int thread
    match register with
    | .asking =>
        if work ≥ change_count then ⟨none, pools, []⟩
        else
          match change_at changes work with
          | none => ⟨none, pools, [.undefined]⟩
          | some change => search_start offsets max_length vertex_count work change pools
    | .searching change depth =>
        if depth > 0 then
          search_round offsets neighbors changes change_count max_length vertex_count work change
            depth pools
        else ⟨none, pools, []⟩

end Kernel

section Counts

variable {offsets neighbors : List Nat} {changes : List EdgeChange} {change_count max_length : Int}
  {vertex_count k : Nat}

-- What a step does to a count: it adds the cycles that it counts, as far as a word goes.
def StepCounts (k : Nat) (pools : UpdatePools)
    (effect : Effect UpdateRegister UpdatePools UpdateEvent) : Prop :=
  effect.memory.counts k =
    (pools.counts k + (effect.events.filterMap UpdateEvent.bin).count k) % 2 ^ 64

theorem step_counts_silent {pools pools' : UpdatePools} {register : Option UpdateRegister}
    {events : List UpdateEvent} (hword : pools.counts k < 2 ^ 64)
    (hsame : pools'.counts = pools.counts) (hsilent : events.filterMap UpdateEvent.bin = []) :
    StepCounts k pools ⟨register, pools', events⟩ := by
  unfold StepCounts
  rw [hsame, hsilent, List.count_nil, Nat.add_zero, Nat.mod_eq_of_lt hword]

theorem search_round_counts (work : Int) (change : EdgeChange) (depth : Nat) {pools : UpdatePools}
    (hword : pools.counts k < 2 ^ 64) : StepCounts k pools (search_round offsets neighbors changes
      change_count max_length vertex_count work change depth pools) := by
  unfold search_round
  dsimp only
  split
  · exact step_counts_silent hword rfl rfl
  · generalize find_change changes change_count _ _ = found
    cases found with
    | error error => exact step_counts_silent hword rfl rfl
    | ok change_id =>
        dsimp only
        split_ifs
        · exact step_counts_silent hword rfl rfl
        · -- the one step that counts
          unfold StepCounts
          change Function.update pools.counts (depth + 1) (wrap (pools.counts (depth + 1) + 1)) k =
            (pools.counts k + [depth + 1].count k) % 2 ^ 64
          by_cases hk : k = depth + 1
          · subst hk
            rw [Function.update_self, List.count_singleton_self]
            rfl
          · rw [Function.update_of_ne hk, List.count_singleton, if_neg (by simpa using Ne.symm hk),
              Nat.add_zero, Nat.mod_eq_of_lt hword]
        · exact step_counts_silent hword rfl rfl
        · exact step_counts_silent hword rfl rfl
        · exact step_counts_silent hword rfl rfl
        · exact step_counts_silent hword rfl rfl
        · exact step_counts_silent hword rfl rfl

theorem kernel_step_counts (thread : Nat) (register : UpdateRegister) {pools : UpdatePools}
    (hword : pools.counts k < 2 ^ 64) : StepCounts k pools (count_owned_cycles_kernel offsets
      neighbors changes change_count max_length vertex_count thread register pools) := by
  unfold count_owned_cycles_kernel
  cases register with
  | asking =>
      dsimp only
      split_ifs
      · exact step_counts_silent hword rfl rfl
      · cases change_at changes (to_int thread) with
        | none => exact step_counts_silent hword rfl rfl
        | some change => exact step_counts_silent hword rfl rfl
  | searching change depth =>
      dsimp only
      split_ifs
      · exact search_round_counts _ change depth hword
      · exact step_counts_silent hword rfl rfl

end Counts

section FindChange

theorem to_int_eq {value : Nat} (h : value < 2 ^ 31) : to_int value = value := by
  have hlow : -((2 ^ 32 : Nat) / 2 : Int) ≤ value := by omega
  have hhigh : (value : Int) < ((2 ^ 32 : Nat) + 1) / 2 := by omega
  exact Int.bmod_eq_of_le hlow hhigh

theorem to_size_eq {value : Nat} (h : value < 2 ^ 64) : to_size value = value := by
  unfold to_size
  omega

theorem change_at_natCast (changes : List EdgeChange) (index : Nat) :
    change_at changes index = changes[index]? := by
  rw [change_at, if_neg (by omega), Int.toNat_natCast]

variable {changes : List EdgeChange} {source target : Nat}

theorem getElem?_of_lt (hsorted : changes.Pairwise fun a b => EdgeChange.lt a b = true)
    {i j : Nat} {a b : EdgeChange} (ha : changes[i]? = some a) (hb : changes[j]? = some b)
    (h : EdgeChange.lt a b = true) : i < j := by
  by_contra hle
  obtain ⟨hi, rfl⟩ := List.getElem?_eq_some_iff.mp ha
  obtain ⟨hj, rfl⟩ := List.getElem?_eq_some_iff.mp hb
  rw [EdgeChange.lt_iff] at h
  rcases Nat.eq_or_lt_of_le (Nat.le_of_not_lt hle) with rfl | hlt
  · omega
  · have := List.pairwise_iff_getElem.mp hsorted j i hj hi hlt
    rw [EdgeChange.lt_iff] at this
    omega

-- In a sorted array whose indices add up without overflow the search finds the change, if
-- it lies between the bounds.
theorem find_change_between_eq (hsorted : changes.Pairwise fun a b => EdgeChange.lt a b = true)
    (hsmall : changes.length ≤ 2 ^ 30) (low high : Int) (hlow : 0 ≤ low)
    (hhigh : high < changes.length)
    (hbetween : ∀ i : Nat, changes[i]? = some ⟨source, target⟩ → low ≤ i ∧ i ≤ high) :
    find_change_between changes source target low high =
      .ok (if ⟨source, target⟩ ∈ changes then (changes.idxOf ⟨source, target⟩ : Int) else -1) := by
  induction hn : (high + 1 - low).toNat using Nat.strongRecOn generalizing low high with
  | ind n ih =>
      rw [find_change_between]
      by_cases hle : low ≤ high
      · obtain ⟨mid, hmid⟩ : ∃ mid : Nat, (low + high) / 2 = mid :=
          ⟨((low + high) / 2).toNat, by omega⟩
        obtain ⟨change, hchange⟩ : ∃ change, changes[mid]? = some change :=
          ⟨_, List.getElem?_eq_getElem (by omega)⟩
        have hfits : ¬low + high > INT_MAX := by
          unfold INT_MAX
          omega
        rw [if_pos hle, if_neg hfits, hmid]
        simp only [change_at_natCast, hchange]
        by_cases hbefore : change.source < source ∨ change.source = source ∧ change.target < target
        · rw [if_pos hbefore]
          refine ih _ (by omega) (mid + 1) high (by omega) hhigh (fun i hi => ?_) rfl
          have := getElem?_of_lt hsorted hchange hi ((EdgeChange.lt_iff _ _).mpr hbefore)
          have := hbetween i hi
          omega
        by_cases hbehind : change.source > source ∨ change.source = source ∧ change.target > target
        · rw [if_neg hbefore, if_pos hbehind]
          refine ih _ (by omega) low (mid - 1) hlow (by omega) (fun i hi => ?_) rfl
          have hlt : EdgeChange.lt ⟨source, target⟩ change = true := by
            rw [EdgeChange.lt_iff]
            dsimp only
            omega
          have := getElem?_of_lt hsorted hi hchange hlt
          have := hbetween i hi
          omega
        · -- the change is found, and there is only one
          have hfound : change = ⟨source, target⟩ := by
            cases change
            dsimp only at hbefore hbehind
            congr 1 <;> omega
          subst hfound
          obtain ⟨hlt, hget⟩ := List.getElem?_eq_some_iff.mp hchange
          have hnodup : changes.Nodup := hsorted.imp fun {a b} h he => by
            rw [he, EdgeChange.lt_iff] at h
            omega
          have hid : changes.idxOf ⟨source, target⟩ = mid := by
            rw [← hget]
            exact hnodup.idxOf_getElem mid hlt
          rw [if_neg hbefore, if_neg hbehind, if_pos (List.mem_of_getElem? hchange), hid]
      · have hnone : (⟨source, target⟩ : EdgeChange) ∉ changes := fun hm => by
          obtain ⟨i, hi⟩ := List.mem_iff_getElem?.mp hm
          have := hbetween i hi
          omega
        rw [if_neg hle, if_neg hnone]

-- The search gives the same answers as the index of the changes.
theorem find_change_eq (hsorted : changes.Pairwise fun a b => EdgeChange.lt a b = true)
    (hsmall : changes.length ≤ 2 ^ 30) (source target : Nat) :
    ∃ change_id, find_change changes changes.length source target = .ok change_id ∧
      ∀ work : Nat, change_id ≥ 0 ∧ change_id < work ↔ ⟨source, target⟩ ∈ changes.take work := by
  refine ⟨_, find_change_between_eq hsorted hsmall 0 (changes.length - 1) (by omega) (by omega)
    fun i hi => ?_, fun work => ?_⟩
  · have := (List.getElem?_eq_some_iff.mp hi).1
    omega
  · by_cases hm : ⟨source, target⟩ ∈ changes
    · rw [if_pos hm, List.mem_take_iff_idxOf_lt hm]
      omega
    · rw [if_neg hm]
      refine iff_of_false (by omega) fun h => hm (List.mem_of_mem_take h)

end FindChange

end CycleEnum.Dynamic
