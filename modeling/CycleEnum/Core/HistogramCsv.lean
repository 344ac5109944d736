import CycleEnum.Core.Decimal
import CycleEnum.Core.Histogram
import Mathlib.Algebra.Order.BigOperators.Group.Finset

namespace CycleEnum.CycleHistogram

-- `CycleHistogram::total`.
def checked_total (histogram : CycleHistogram) : Except Error Nat :=
  histogram.entries.toList.foldlM (fun sum entry => do
    ensure_addition_safe sum entry.2
    return sum + entry.2) 0

-- `out << first << ", " << second << '\n'`.
def csv_line (first second : List Char) : List Char := first ++ ", ".toList ++ second ++ ['\n']

def csv_row (entry : Nat × Nat) : List Char := csv_line entry.1.repr.toList entry.2.repr.toList

def csv_header : List Char := "# cycle_size, num_of_cycles\n".toList

def to_csv (histogram : CycleHistogram) (include_total : Bool) : Except Error (List Char) := do
  let rows := csv_header ++ histogram.entries.toList.flatMap csv_row
  if include_total then
    let total ← histogram.checked_total
    return rows ++ csv_line "Total".toList total.repr.toList
  return rows

-- The number of all cycles.
def size (histogram : CycleHistogram) : Nat := (histogram.entries.toList.map (·.2)).sum

variable {histogram : CycleHistogram}

theorem sum_of_entries (entries : List (Nat × Nat)) {start : Nat} (hstart : start ≤ MAX_COUNT) :
    entries.foldlM (fun sum entry => (do
      ensure_addition_safe sum entry.2
      return sum + entry.2 : Except Error Nat)) start =
      if start + (entries.map (·.2)).sum ≤ MAX_COUNT then .ok (start + (entries.map (·.2)).sum)
      else .error (.overflow_error "cycle histogram count overflow") := by
  induction entries generalizing start with
  | nil => simp [hstart, pure, Except.pure]
  | cons entry entries ih =>
      rw [List.foldlM_cons, List.map_cons, List.sum_cons, ← Nat.add_assoc]
      by_cases hfit : start + entry.2 ≤ MAX_COUNT
      · have hsafe : ensure_addition_safe start entry.2 = .ok () := if_neg (by omega)
        have hround : (do
            ensure_addition_safe start entry.2
            return start + entry.2 : Except Error Nat) = .ok (start + entry.2) := by
          rw [ok_bind hsafe]
          rfl
        rw [ok_bind hround, ih hfit]
      · have hsafe : ensure_addition_safe start entry.2 =
            .error (.overflow_error "cycle histogram count overflow") := if_pos (by omega)
        rw [if_neg (by omega), hsafe]
        rfl

theorem checked_total_eq : histogram.checked_total = if histogram.size ≤ MAX_COUNT then .ok histogram.size
    else .error (.overflow_error "cycle histogram count overflow") := by
  have hsum := sum_of_entries histogram.entries.toList (Nat.zero_le MAX_COUNT)
  rwa [Nat.zero_add] at hsum

theorem to_csv_eq : histogram.to_csv true = if histogram.size ≤ MAX_COUNT then
      .ok (csv_header ++ histogram.entries.toList.flatMap csv_row ++
        csv_line "Total".toList histogram.size.repr.toList)
    else .error (.overflow_error "cycle histogram count overflow") := by
  unfold to_csv
  rw [if_pos rfl, checked_total_eq]
  split_ifs
  · rfl
  · rfl

theorem to_csv_ok {text : List Char} (h : histogram.to_csv true = .ok text) :
    histogram.size ≤ MAX_COUNT ∧ text = csv_header ++ histogram.entries.toList.flatMap csv_row ++
      csv_line "Total".toList histogram.size.repr.toList := by
  rw [to_csv_eq] at h
  split_ifs at h with hfit
  exact ⟨hfit, (Except.ok.inj h).symm⟩

-- The lengths with an entry.
def lengths (histogram : CycleHistogram) : Finset Nat := (histogram.entries.toList.map (·.1)).toFinset

theorem mem_lengths_iff {k : Nat} : k ∈ histogram.lengths ↔ histogram.entries[k]? ≠ none := by
  simp only [lengths, List.mem_toFinset, List.mem_map, Prod.exists, exists_and_right, exists_eq_right,
    Std.ExtTreeMap.mem_toList_iff_getElem?_eq_some, Option.ne_none_iff_exists']

theorem mem_lengths_of_count {k : Nat} (h : histogram.count k ≠ 0) : k ∈ histogram.lengths := by
  refine mem_lengths_iff.mpr fun hnone => h ?_
  rw [count, Std.ExtTreeMap.getD_eq_getD_getElem?, hnone, Option.getD_none]

theorem size_eq_sum : histogram.size = ∑ k ∈ histogram.lengths, histogram.count k := by
  have hdistinct : (histogram.entries.toList.map (·.1)).Nodup :=
    List.pairwise_map.mpr (Std.ExtTreeMap.distinct_keys_toList.imp fun {a b} hne heq =>
      hne (by simp [heq]))
  rw [lengths, List.sum_toFinset _ hdistinct, List.map_map, size]
  refine congrArg List.sum (List.map_congr_left fun entry he => ?_)
  have hfound := Std.ExtTreeMap.mem_toList_iff_getElem?_eq_some.mp
    (show (entry.1, entry.2) ∈ _ from he)
  rw [Function.comp_apply, count, Std.ExtTreeMap.getD_eq_getD_getElem?, hfound, Option.getD_some]

theorem sum_count_le_size (ks : Finset Nat) : ∑ k ∈ ks, histogram.count k ≤ histogram.size := by
  rw [size_eq_sum]
  exact Finset.sum_le_sum_of_ne_zero fun k _ hk => mem_lengths_of_count hk

end CycleEnum.CycleHistogram
