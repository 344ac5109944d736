import CycleEnum.Core.Types
import Mathlib.Data.List.Sort
import Mathlib.Data.List.Destutter

namespace CycleEnum.Dynamic

structure EdgeChange where
  source : Nat
  target : Nat
deriving DecidableEq, Repr

-- `operator<`
def EdgeChange.lt (lhs rhs : EdgeChange) : Bool :=
  if lhs.source ≠ rhs.source then lhs.source < rhs.source else lhs.target < rhs.target

structure EdgeBatch where
  deletions : List EdgeChange
  insertions : List EdgeChange
deriving DecidableEq, Repr

-- `std::unique` on a row drops what equals its predecessor.
def unique {α : Type} [DecidableEq α] (row : List α) : List α := row.destutter (· ≠ ·)

-- `std::sort` with `operator<`, then `std::unique`.
def sort_and_dedup (changes : List EdgeChange) : List EdgeChange :=
  unique (changes.insertionSort fun a b => EdgeChange.lt b a = false)

def normalize (batch : EdgeBatch) : EdgeBatch where
  deletions := sort_and_dedup batch.deletions
  insertions := sort_and_dedup batch.insertions

section Unique

variable {α : Type} [DecidableEq α]

theorem mem_destutter' {x : α} (row : List α) (a : α) (h : x ∈ a :: row) :
    x ∈ row.destutter' (· ≠ ·) a := by
  induction row generalizing a with
  | nil => simpa using h
  | cons b row ih =>
      by_cases hab : a = b
      · subst hab
        rw [List.destutter'_cons_neg _ (by simp)]
        exact ih a (by simpa using h)
      · rw [List.destutter'_cons_pos _ hab]
        rcases List.mem_cons.mp h with rfl | h
        · exact List.mem_cons_self
        · exact List.mem_cons_of_mem _ (ih b h)

@[simp] theorem mem_unique {row : List α} {x : α} : x ∈ unique row ↔ x ∈ row := by
  constructor
  · exact fun h => (List.destutter_sublist _ row).subset h
  · intro h
    cases row with
    | nil => exact h
    | cons a row => exact mem_destutter' row a h

-- A sorted row without equal neighbours ascends strictly.
theorem unique_pairwise {le lt : α → α → Prop} [IsTrans α lt] (hlt : ∀ a b, le a b → a ≠ b → lt a b)
    {row : List α} (h : row.Pairwise le) : (unique row).Pairwise lt := by
  have hle : (unique row).IsChain le := (h.sublist (List.destutter_sublist _ row)).isChain
  have hne : (unique row).IsChain (· ≠ ·) := List.isChain_destutter _ row
  rw [List.isChain_iff_forall_rel_of_append_cons_cons] at hle hne
  refine List.isChain_iff_pairwise.mp (List.isChain_iff_forall_rel_of_append_cons_cons.mpr ?_)
  exact fun a b before after hsplit => hlt a b (hle hsplit) (hne hsplit)

end Unique

theorem EdgeChange.lt_iff (a b : EdgeChange) :
    EdgeChange.lt a b = true ↔ a.source < b.source ∨ a.source = b.source ∧ a.target < b.target := by
  unfold EdgeChange.lt
  split_ifs
  · simp only [decide_eq_true_eq]
    omega
  · simp only [decide_eq_true_eq]
    omega

theorem EdgeChange.lt_eq_false_iff (a b : EdgeChange) :
    EdgeChange.lt b a = false ↔ a.source < b.source ∨ a.source = b.source ∧ a.target ≤ b.target := by
  rw [← Bool.not_eq_true, EdgeChange.lt_iff]
  omega

@[simp] theorem mem_sort_and_dedup {changes : List EdgeChange} {change : EdgeChange} :
    change ∈ sort_and_dedup changes ↔ change ∈ changes := by
  simp [sort_and_dedup]

theorem sorted_changes (changes : List EdgeChange) :
    (changes.insertionSort fun a b => EdgeChange.lt b a = false).Pairwise
      fun a b => EdgeChange.lt b a = false := by
  have htotal : Std.Total fun a b => EdgeChange.lt b a = false := ⟨fun a b => by
    simp only [EdgeChange.lt_eq_false_iff]
    omega⟩
  have htrans : IsTrans EdgeChange fun a b => EdgeChange.lt b a = false := ⟨fun a b c => by
    simp only [EdgeChange.lt_eq_false_iff]
    omega⟩
  exact List.pairwise_insertionSort (fun a b => EdgeChange.lt b a = false) changes

theorem sort_and_dedup_ascending (changes : List EdgeChange) :
    (sort_and_dedup changes).Pairwise fun a b => EdgeChange.lt a b = true := by
  have hstrict : IsTrans EdgeChange fun a b => EdgeChange.lt a b = true := ⟨fun a b c => by
    simp only [EdgeChange.lt_iff]
    omega⟩
  have hlt : ∀ a b, EdgeChange.lt b a = false → a ≠ b → EdgeChange.lt a b = true := by
    rintro ⟨s, t⟩ ⟨s', t'⟩ hle hne
    rw [EdgeChange.lt_eq_false_iff] at hle
    rw [EdgeChange.lt_iff]
    simp only [ne_eq, EdgeChange.mk.injEq] at hne
    dsimp only at hle ⊢
    omega
  exact unique_pairwise hlt (sorted_changes changes)

-- So the index of a change is its only one.
theorem sort_and_dedup_nodup (changes : List EdgeChange) : (sort_and_dedup changes).Nodup := by
  refine (sort_and_dedup_ascending changes).imp ?_
  rintro a _ h rfl
  rw [EdgeChange.lt_iff] at h
  omega

end CycleEnum.Dynamic
