import CycleEnum.Core.Types
import Mathlib.Data.List.GetD
import Mathlib.Data.List.Range
import Mathlib.Algebra.Order.Ring.Int
import Mathlib.Tactic.Common

namespace CycleEnum

section Rows

variable {α : Type} {offsets : List Nat} {entries : List α}

-- `vertex + 1` of a `VertexId`: the last of the 2^32 ids is followed by 0.
def next_id (vertex : Nat) : Nat := if vertex + 1 = 2 ^ 32 then 0 else vertex + 1

-- The entries from `offsets[vertex]` to `offsets[vertex + 1]`, the index a
-- `std::size_t`.
def stored_row (offsets : List Nat) (entries : List α) (vertex : Nat) : List α :=
  entries.extract (offsets.getD vertex 0) (offsets.getD (vertex + 1) 0)

-- The entries that a loop from `offsets[vertex]` to `offsets[vertex + 1]` visits, the
-- index a `VertexId`.
def narrow_row (offsets : List Nat) (entries : List α) (vertex : Nat) : List α :=
  entries.extract (offsets.getD vertex 0) (offsets.getD (next_id vertex) 0)

theorem next_id_eq {vertex : Nat} (h : vertex + 1 ≠ 2 ^ 32) : next_id vertex = vertex + 1 := if_neg h

theorem next_id_of_lt {vertex vertex_count : Nat} (h : vertex < vertex_count)
    (hcount : vertex_count < 2 ^ 32) : next_id vertex = vertex + 1 :=
  next_id_eq (by omega)

theorem next_id_mod {vertex : Nat} (h : vertex < 2 ^ 32) : next_id vertex = (vertex + 1) % 2 ^ 32 := by
  unfold next_id
  split_ifs with hlast
  · rw [hlast]
    rfl
  · rw [Nat.mod_eq_of_lt (by omega)]

theorem next_id_lt {vertex : Nat} (h : vertex < 2 ^ 32) : next_id vertex < 2 ^ 32 := by
  rw [next_id_mod h]
  exact Nat.mod_lt _ (by decide)

theorem narrow_row_eq {vertex : Nat} (h : vertex + 1 ≠ 2 ^ 32) :
    narrow_row offsets entries vertex = stored_row offsets entries vertex := by
  rw [narrow_row, next_id_eq h]
  rfl

-- The row of the last id is read up to `offsets[0]`.
theorem narrow_row_last (hstart : offsets.getD 0 0 = 0) {vertex : Nat} (h : vertex + 1 = 2 ^ 32) :
    narrow_row offsets entries vertex = [] := by
  rw [narrow_row, next_id, if_pos h, hstart]
  simp [List.extract]

theorem stored_row_beyond {vertex : Nat} (h : offsets.length ≤ vertex + 1) :
    stored_row offsets entries vertex = [] := by
  rw [stored_row, List.getD_eq_default offsets 0 h]
  simp [List.extract]

-- Nothing is lost while no vertex has the last id.
theorem narrow_row_of_length (hstart : offsets.getD 0 0 = 0) (h : offsets.length ≤ 2 ^ 32)
    (vertex : Nat) : narrow_row offsets entries vertex = stored_row offsets entries vertex := by
  by_cases hlast : vertex + 1 = 2 ^ 32
  · rw [narrow_row_last hstart hlast, stored_row_beyond (by omega)]
  · exact narrow_row_eq hlast

theorem mem_narrow_row_iff (hstart : offsets.getD 0 0 = 0) {vertex : Nat} {entry : α} :
    entry ∈ narrow_row offsets entries vertex ↔
      vertex + 1 ≠ 2 ^ 32 ∧ entry ∈ stored_row offsets entries vertex := by
  by_cases hlast : vertex + 1 = 2 ^ 32
  · rw [narrow_row_last hstart hlast]
    simp [hlast]
  · rw [narrow_row_eq hlast]
    exact (and_iff_right hlast).symm

theorem mem_stored_row (hstart : offsets.getD 0 0 = 0) {vertex : Nat} {entry : α}
    (h : entry ∈ narrow_row offsets entries vertex) : entry ∈ stored_row offsets entries vertex :=
  ((mem_narrow_row_iff hstart).mp h).2

end Rows

variable {σ : Type}

-- `for (VertexId vertex = 0; vertex < vertex_count; ++vertex)`: the variable has 32 bits,
-- the count is a `std::size_t`. There is no result where the fuel runs out.
def vertex_loop (vertex_count : Nat) (body : σ → Nat → σ) : Nat → Nat → σ → Option σ
  | 0, _, _ => none
  | fuel + 1, vertex, state =>
      if vertex < vertex_count then
        vertex_loop vertex_count body fuel ((vertex + 1) % 2 ^ 32) (body state vertex)
      else some state

def Terminates (vertex_count : Nat) (body : σ → Nat → σ) (state : σ) : Prop :=
  ∃ fuel result, vertex_loop vertex_count body fuel 0 state = some result

theorem vertex_loop_eq {vertex_count : Nat} (hcount : vertex_count < 2 ^ 32) (body : σ → Nat → σ)
    {fuel vertex : Nat} (hvertex : vertex ≤ vertex_count) (hfuel : vertex_count - vertex < fuel)
    (state : σ) :
    vertex_loop vertex_count body fuel vertex state =
      some ((List.range' vertex (vertex_count - vertex)).foldl body state) := by
  induction fuel generalizing vertex state with
  | zero => omega
  | succ fuel ih =>
      rw [vertex_loop]
      rcases Nat.lt_or_eq_of_le hvertex with hlt | rfl
      · obtain ⟨left, hleft⟩ : ∃ left, vertex_count - vertex = left + 1 :=
          ⟨vertex_count - vertex - 1, by omega⟩
        have hnext : (vertex + 1) % 2 ^ 32 = vertex + 1 := Nat.mod_eq_of_lt (by omega)
        rw [if_pos hlt, hnext, ih (by omega) (by omega), hleft, List.range'_succ, List.foldl_cons,
          show vertex_count - (vertex + 1) = left by omega]
      · rw [if_neg (Nat.lt_irrefl _), Nat.sub_self, List.range'_zero, List.foldl_nil]

-- From 2^32 vertices on, every value of the variable is a vertex, and the loop never ends.
theorem vertex_loop_endless {vertex_count : Nat} (hcount : 2 ^ 32 ≤ vertex_count)
    (body : σ → Nat → σ) (fuel : Nat) {vertex : Nat} (hvertex : vertex < 2 ^ 32) (state : σ) :
    vertex_loop vertex_count body fuel vertex state = none := by
  induction fuel generalizing vertex state with
  | zero => rfl
  | succ fuel ih =>
      rw [vertex_loop, if_pos (by omega)]
      exact ih (Nat.mod_lt _ (by decide)) _

-- More fuel does not change a result.
theorem vertex_loop_add {vertex_count : Nat} {body : σ → Nat → σ} {fuel vertex : Nat}
    {state result : σ} (h : vertex_loop vertex_count body fuel vertex state = some result)
    (more : Nat) : vertex_loop vertex_count body (fuel + more) vertex state = some result := by
  induction fuel generalizing vertex state with
  | zero => cases h
  | succ fuel ih =>
      rw [vertex_loop] at h
      rw [Nat.add_right_comm, vertex_loop]
      split at h
      · next hlt =>
          rw [if_pos hlt]
          exact ih h
      · next hlt =>
          rw [if_neg hlt]
          exact h

theorem vertex_loop_iff {vertex_count : Nat} (body : σ → Nat → σ) (state result : σ) :
    (∃ fuel, vertex_loop vertex_count body fuel 0 state = some result) ↔
      vertex_count < 2 ^ 32 ∧ (List.range vertex_count).foldl body state = result := by
  constructor
  · intro hends
    obtain ⟨fuel, hfuel⟩ := hends
    by_cases hcount : vertex_count < 2 ^ 32
    · have hrun := vertex_loop_add hfuel (vertex_count + 1)
      rw [vertex_loop_eq hcount body (Nat.zero_le _) (by omega), Nat.sub_zero,
        ← List.range_eq_range'] at hrun
      exact ⟨hcount, Option.some.inj hrun⟩
    · rw [vertex_loop_endless (Nat.le_of_not_lt hcount) body fuel (by decide)] at hfuel
      cases hfuel
  · intro h
    obtain ⟨hcount, hfold⟩ := h
    refine ⟨vertex_count + 1, ?_⟩
    rw [vertex_loop_eq hcount body (Nat.zero_le _) (by omega), Nat.sub_zero,
      ← List.range_eq_range', hfold]

-- Whether the loop ends depends on the number of vertices only.
theorem terminates_iff {vertex_count : Nat} (body : σ → Nat → σ) (state : σ) :
    Terminates vertex_count body state ↔ vertex_count < 2 ^ 32 := by
  constructor
  · intro h
    obtain ⟨fuel, result, hrun⟩ := h
    exact ((vertex_loop_iff body state result).mp ⟨fuel, hrun⟩).1
  · intro hcount
    obtain ⟨fuel, hrun⟩ := (vertex_loop_iff body state _).mpr ⟨hcount, rfl⟩
    exact ⟨fuel, _, hrun⟩

section Searches

variable {m : Type → Type} [Monad m] [MonadExceptOf Error m]

-- `vertex_loop` around a body that can throw: `for (VertexId root = 0; root < vertex_count;
-- ++root)`.
def root_loop (vertex_count : Nat) (body : σ → Nat → m σ) : Nat → Nat → σ → m σ
  | 0, _, _ => throw .unfinished
  | fuel + 1, root, state =>
      if root < vertex_count then do
        let state ← body state root
        root_loop vertex_count body fuel (next_id root) state
      else return state

-- The loop from the first root, with fuel for every vertex.
def for_each_root (vertex_count : Nat) (body : σ → Nat → m σ) (state : σ) : m σ :=
  root_loop vertex_count body (vertex_count + 1) 0 state

theorem root_loop_eq [LawfulMonad m] {vertex_count : Nat} (hcount : vertex_count < 2 ^ 32)
    (body : σ → Nat → m σ) {fuel root : Nat} (hroot : root ≤ vertex_count)
    (hfuel : vertex_count - root < fuel) (state : σ) :
    root_loop vertex_count body fuel root state =
      (List.range' root (vertex_count - root)).foldlM body state := by
  induction fuel generalizing root state with
  | zero => omega
  | succ fuel ih =>
      rw [root_loop]
      rcases Nat.lt_or_eq_of_le hroot with hlt | rfl
      · obtain ⟨left, hleft⟩ : ∃ left, vertex_count - root = left + 1 :=
          ⟨vertex_count - root - 1, by omega⟩
        rw [if_pos hlt, next_id_of_lt hlt hcount, hleft, List.range'_succ, List.foldlM_cons]
        refine bind_congr fun next => ?_
        rw [ih (by omega) (by omega), show vertex_count - (root + 1) = left by omega]
      · rw [if_neg (Nat.lt_irrefl _), Nat.sub_self]
        rfl

-- Below 2^32 vertices the loop visits every root once and ends.
theorem for_each_root_eq [LawfulMonad m] {vertex_count : Nat} (hcount : vertex_count < 2 ^ 32)
    (body : σ → Nat → m σ) (state : σ) :
    for_each_root vertex_count body state = (List.range vertex_count).foldlM body state := by
  rw [for_each_root, root_loop_eq hcount body (Nat.zero_le _) (by omega), Nat.sub_zero,
    ← List.range_eq_range']

-- From 2^32 vertices on it has no result, whatever the fuel.
theorem root_loop_endless {ρ : Type} {vertex_count : Nat} (hcount : 2 ^ 32 ≤ vertex_count)
    (body : σ → Nat → StateT ρ (Except Error) σ) (fuel : Nat) {root : Nat} (hroot : root < 2 ^ 32)
    (state : σ) (start : ρ) (result : σ × ρ) :
    root_loop vertex_count body fuel root state start ≠ .ok result := by
  induction fuel generalizing root state start with
  | zero =>
      intro h
      cases h
  | succ fuel ih =>
      rw [root_loop, if_pos (by omega)]
      intro h
      obtain ⟨next, -, hrest⟩ := bind_ok h
      exact ih (next_id_lt hroot) next.1 next.2 hrest

theorem root_loop_endless' {vertex_count : Nat} (hcount : 2 ^ 32 ≤ vertex_count)
    (body : σ → Nat → Except Error σ) (fuel : Nat) {root : Nat} (hroot : root < 2 ^ 32)
    (state result : σ) : root_loop vertex_count body fuel root state ≠ .ok result := by
  induction fuel generalizing root state with
  | zero =>
      intro h
      cases h
  | succ fuel ih =>
      rw [root_loop, if_pos (by omega)]
      intro h
      obtain ⟨next, -, hrest⟩ := bind_ok h
      exact ih (next_id_lt hroot) next hrest

theorem for_each_root_endless {ρ : Type} {vertex_count : Nat} (hcount : 2 ^ 32 ≤ vertex_count)
    (body : σ → Nat → StateT ρ (Except Error) σ) (state : σ) (start : ρ) (result : σ × ρ) :
    for_each_root vertex_count body state start ≠ .ok result :=
  root_loop_endless hcount body _ (by decide) state start result

theorem for_each_root_endless' {vertex_count : Nat} (hcount : 2 ^ 32 ≤ vertex_count)
    (body : σ → Nat → Except Error σ) (state result : σ) :
    for_each_root vertex_count body state ≠ .ok result :=
  root_loop_endless' hcount body _ (by decide) state result

end Searches

end CycleEnum
