import CycleEnum.Dynamic.CyclesThroughEdge

namespace CycleEnum.Dynamic

open CycleEnum.Enumeration CycleEnum.Sequential

def Signed (value : Int) : Prop := -2 ^ 63 ≤ value ∧ value < 2 ^ 63

instance (value : Int) : Decidable (Signed value) :=
  inferInstanceAs (Decidable (_ ∧ _))

-- The result of an operation on `long long`.
def signed (value : Int) : Except Error Int :=
  if Signed value then .ok value else .error .undefined

-- `static_cast<long long>(count)`
def to_signed (count : Nat) : Int := (count : Int).bmod (2 ^ 64)

-- `max_length + 1`, a `std::size_t`.
def places (max_length : Nat) : Nat := (max_length + 1) % 2 ^ 64

-- `max_size()` of a vector of 64-bit values.
def MAX_PLACES : Nat := 2 ^ 60 - 1

-- A vector of 64-bit values with `max_length + 1` places.
def make_vector (α : Type) [Zero α] (max_length : Nat) : Except Error (List α) :=
  if places max_length > MAX_PLACES then
    throw (.logic_error "cannot create std::vector larger than max_size()")
  else return List.replicate (places max_length) 0

-- `std::vector<long long> delta(max_length + 1, 0)`
def make_delta (max_length : Nat) : Except Error (List Int) := make_vector Int max_length

-- `delta[length] += sign * static_cast<long long>(counts[length])`
def add_counts (sign : Int) (counts : List Nat) (delta : List Int) (length : Nat) :
    Except Error (List Int) := do
  if counts.length ≤ length ∨ delta.length ≤ length then throw .undefined
  let change ← signed (sign * to_signed (counts.getD length 0))
  return delta.set length (← signed (delta.getD length 0 + change))

def accumulate_phase (graph : DirectedGraph) (changes : List EdgeChange) (max_length : Nat)
    (sign : Int) (delta : List Int) (buffer : VisitedBuffer) :
    Except Error (List Int × VisitedBuffer) :=
  let index := ChangedEdgeIndex.of_changes changes
  changes.zipIdx.foldlM (fun (delta, buffer) (change, owner_id) => do
    let (counts, buffer) ← count_cycles_through_edge graph change.source change.target owner_id
      index max_length (List.replicate (places max_length) 0) buffer
    let delta ← (List.range' 2 (max_length - 1)).foldlM (add_counts sign counts) delta
    return (delta, buffer)) (delta, buffer)

def add_total (delta : List Int) (totals : Std.ExtTreeMap Nat Int) (length : Nat) :
    Except Error (Std.ExtTreeMap Nat Int) := do
  if delta.getD length 0 = 0 then return totals
  else
    let total ← signed (totals.getD (length_of_size length) 0 + delta.getD length 0)
    return totals.insert (length_of_size length) total

def add_entry (result : CycleHistogram) (entry : Nat × Int) : Except Error CycleHistogram :=
  if entry.2 < 0 then throw (.logic_error "dynamic update produced a negative cycle count")
  else if entry.2 > 0 then result.increment entry.1 entry.2.toNat
  else return result

def apply_histogram_delta (base : CycleHistogram) (delta : List Int) (max_cycle_length : Nat) :
    Except Error CycleHistogram := do
  let totals := base.entries.map fun _ count => to_signed count
  let lengths := (List.range' 2 (max_cycle_length - 1)).takeWhile (· < delta.length)
  let totals ← lengths.foldlM (add_total delta) totals
  totals.toList.foldlM add_entry ∅

def update_static_histogram (initial_graph : DirectedGraph) (initial_histogram : CycleHistogram)
    (batch : EdgeBatch) (max_cycle_length : Nat) (buffer : VisitedBuffer) :
    Except Error (CycleHistogram × VisitedBuffer) := do
  if max_cycle_length < 2 then
    throw (.invalid_argument "max_cycle_length must be at least 2")
  let normalized := normalize batch
  let delta ← make_delta max_cycle_length
  let (delta, buffer) ← accumulate_phase initial_graph normalized.deletions max_cycle_length (-1)
    delta buffer
  let final_graph := apply_batch initial_graph normalized
  let (delta, buffer) ← accumulate_phase final_graph normalized.insertions max_cycle_length 1
    delta buffer
  let histogram ← apply_histogram_delta initial_histogram delta max_cycle_length
  return (histogram, buffer)

section Places

variable {max_length : Nat}

theorem places_eq (h : max_length + 1 ≤ MAX_PLACES) : places max_length = max_length + 1 :=
  Nat.mod_eq_of_lt (lt_of_le_of_lt h (by decide))

theorem make_vector_eq {α : Type} [Zero α] (h : max_length + 1 ≤ MAX_PLACES) :
    make_vector α max_length = .ok (List.replicate (max_length + 1) 0) := by
  rw [make_vector, places_eq h, if_neg (Nat.not_lt.mpr h)]
  rfl

theorem make_delta_eq (h : max_length + 1 ≤ MAX_PLACES) :
    make_delta max_length = .ok (List.replicate (max_length + 1) 0) := make_vector_eq h

end Places

section Signed

theorem signed_ok {value : Int} (h : Signed value) : signed value = .ok value := if_pos h

theorem to_signed_eq {count : Nat} (h : count < 2 ^ 63) : to_signed count = count := by
  have hlow : -((2 ^ 64 : Nat) / 2 : Int) ≤ count := by omega
  have hhigh : (count : Int) < ((2 ^ 64 : Nat) + 1) / 2 := by omega
  exact Int.bmod_eq_of_le hlow hhigh

end Signed

section Delta

-- A loop that writes to the given places of an array, each from its old value.
theorem foldlM_set {lengths : List Nat} (hn : lengths.Nodup)
    {step : List Int → Nat → Except Error (List Int)} (value : Nat → Int → Int) (delta : List Int)
    (hsize : ∀ k ∈ lengths, k < delta.length)
    (h : ∀ k ∈ lengths, ∀ delta' : List Int, delta'.length = delta.length →
      delta'.getD k 0 = delta.getD k 0 → step delta' k = .ok (delta'.set k (value k (delta.getD k 0)))) :
    ∃ delta', lengths.foldlM step delta = .ok delta' ∧ delta'.length = delta.length ∧
      ∀ k, delta'.getD k 0 = if k ∈ lengths then value k (delta.getD k 0) else delta.getD k 0 := by
  induction lengths generalizing delta with
  | nil => exact ⟨delta, rfl, rfl, by simp⟩
  | cons length lengths ih =>
      obtain ⟨hnew, hn⟩ := List.nodup_cons.mp hn
      have hother : ∀ k, k ≠ length → ∀ x,
          (delta.set length x).getD k 0 = delta.getD k 0 := by
        intro k hk x
        rw [List.getD_eq_getElem?_getD, List.getD_eq_getElem?_getD, List.getElem?_set_ne hk.symm]
      obtain ⟨delta', hrun, hl, hvalue⟩ := ih hn (delta.set length (value length (delta.getD length 0)))
        (fun k hk => by rw [List.length_set]; exact hsize k (List.mem_cons_of_mem _ hk))
        (fun k hk delta' hl hd => by
          have hne : k ≠ length := fun he => hnew (he ▸ hk)
          rw [hother k hne] at hd ⊢
          rw [List.length_set] at hl
          exact h k (List.mem_cons_of_mem _ hk) delta' hl hd)
      refine ⟨delta', ?_, by rw [hl, List.length_set], fun k => ?_⟩
      · rw [List.foldlM_cons, h length (by simp) delta rfl rfl]
        exact hrun
      · rw [hvalue]
        by_cases hk : k = length
        · subst hk
          rw [if_neg hnew, if_pos (by simp), List.getD_eq_getElem?_getD,
            List.getElem?_set_self (hsize k (by simp))]
          rfl
        · rw [hother k hk]
          simp [hk]

theorem mem_lengths {k max_length : Nat} (hmax : 2 ≤ max_length) :
    k ∈ List.range' 2 (max_length - 1) ↔ 2 ≤ k ∧ k ≤ max_length := by
  rw [List.mem_range'_1]
  omega

theorem add_counts_eq {sign : Int} (counts : List Nat) {max_length : Nat} {delta : List Int}
    (hmax : 2 ≤ max_length) (hsign : sign = 1 ∨ sign = -1) (hlength : counts.length = max_length + 1)
    (hsize : delta.length = max_length + 1)
    (hcounts : ∀ k, 2 ≤ k → k ≤ max_length → counts.getD k 0 < 2 ^ 63 ∧
      Signed (delta.getD k 0 + sign * (counts.getD k 0 : Int))) :
    ∃ delta', (List.range' 2 (max_length - 1)).foldlM (add_counts sign counts) delta = .ok delta' ∧
      delta'.length = max_length + 1 ∧ ∀ k, 2 ≤ k → k ≤ max_length →
        delta'.getD k 0 = delta.getD k 0 + sign * (counts.getD k 0 : Int) := by
  have hstep : ∀ k ∈ List.range' 2 (max_length - 1), ∀ delta' : List Int,
      delta'.length = delta.length → delta'.getD k 0 = delta.getD k 0 →
        add_counts sign counts delta' k =
          .ok (delta'.set k (delta.getD k 0 + sign * (counts.getD k 0 : Int))) := by
    intro k hk delta' hl hd
    obtain ⟨h₁, h₂⟩ := (mem_lengths hmax).mp hk
    obtain ⟨hsmall, hfits⟩ := hcounts k h₁ h₂
    have hchange : Signed (sign * (counts.getD k 0 : Int)) := by
      unfold Signed
      rcases hsign with rfl | rfl <;> omega
    rw [add_counts, if_neg (by omega), to_signed_eq hsmall, signed_ok hchange, hd]
    change (signed _).bind _ = _
    rw [signed_ok hfits]
    rfl
  obtain ⟨delta', hrun, hl, hvalue⟩ := foldlM_set List.nodup_range'
    (fun k old => old + sign * (counts.getD k 0 : Int)) delta
    (fun k hk => by have := (mem_lengths hmax).mp hk; omega) hstep
  refine ⟨delta', hrun, hl.trans hsize, fun k h₁ h₂ => ?_⟩
  rw [hvalue, if_pos ((mem_lengths hmax).mpr ⟨h₁, h₂⟩)]

end Delta

section Totals

variable {delta : List Int} {max_cycle_length : Nat}

theorem add_total_eq {totals : Std.ExtTreeMap Nat Int} {length : Nat}
    (hnarrow : delta.getD length 0 ≠ 0 → length < 2 ^ 32)
    (hfits : Signed (totals.getD length 0 + delta.getD length 0)) :
    ∃ totals', add_total delta totals length = .ok totals' ∧
      (∀ key, totals'.getD key 0 =
        totals.getD key 0 + if key = length then delta.getD length 0 else 0) ∧
      ∀ key, key ∈ totals' → key ∈ totals ∨ key = length := by
  unfold add_total
  by_cases hzero : delta.getD length 0 = 0
  · refine ⟨totals, by rw [if_pos hzero]; rfl, fun key => ?_, fun key h => Or.inl h⟩
    rw [hzero, ite_self, Int.add_zero]
  · have hlength := length_of_size_eq (hnarrow hzero)
    rw [if_neg hzero, hlength, signed_ok hfits]
    refine ⟨_, rfl, fun key => ?_, fun key h => ?_⟩
    · rw [Std.ExtTreeMap.getD_insert]
      by_cases hk : key = length
      · simp [hk]
      · rw [if_neg fun he => hk (compare_eq_iff_eq.mp he).symm, if_neg hk, Int.add_zero]
    · rcases Std.ExtTreeMap.mem_insert.mp h with he | h
      · exact Or.inr (compare_eq_iff_eq.mp he).symm
      · exact Or.inl h

theorem foldlM_add_total {lengths : List Nat} (hn : lengths.Nodup) (totals : Std.ExtTreeMap Nat Int)
    (h : ∀ k ∈ lengths, (delta.getD k 0 ≠ 0 → k < 2 ^ 32) ∧
      Signed (totals.getD k 0 + delta.getD k 0)) :
    ∃ totals', lengths.foldlM (add_total delta) totals = .ok totals' ∧
      (∀ key, totals'.getD key 0 =
        totals.getD key 0 + if key ∈ lengths then delta.getD key 0 else 0) ∧
      ∀ key, key ∈ totals' → key ∈ totals ∨ key ∈ lengths := by
  induction lengths generalizing totals with
  | nil => exact ⟨totals, rfl, by simp, fun key h => Or.inl h⟩
  | cons length lengths ih =>
      obtain ⟨hnew, hn⟩ := List.nodup_cons.mp hn
      obtain ⟨hnarrow, hfits⟩ := h length (by simp)
      obtain ⟨totals₁, hone, hvalue₁, hkeys₁⟩ := add_total_eq hnarrow hfits
      obtain ⟨totals', hrun, hvalue, hkeys⟩ := ih hn totals₁ fun k hk => by
        have hne : k ≠ length := fun he => hnew (he ▸ hk)
        rw [hvalue₁, if_neg hne, Int.add_zero]
        exact h k (List.mem_cons_of_mem _ hk)
      refine ⟨totals', by rw [List.foldlM_cons, hone]; exact hrun, fun key => ?_, fun key hm => ?_⟩
      · rw [hvalue, hvalue₁]
        by_cases hk : key = length
        · subst hk
          simp [hnew]
        · simp [hk]
      · rcases hkeys key hm with hm | hm
        · exact (hkeys₁ key hm).imp id fun he => by simp [he]
        · exact Or.inr (List.mem_cons_of_mem _ hm)

-- Totals that are not negative are recorded one by one.
theorem foldlM_add_entry (entries : List (Nat × Int)) (hl : ∀ entry ∈ entries, 2 ≤ entry.1)
    (hpos : ∀ entry ∈ entries, 0 ≤ entry.2) (result : CycleHistogram) :
    entries.foldlM add_entry result =
      result.record (entries.map fun entry => (entry.1, entry.2.toNat)) := by
  induction entries generalizing result with
  | nil => rfl
  | cons entry entries ih =>
      have hone : add_entry result entry = result.increment entry.1 entry.2.toNat := by
        have := hpos entry (by simp)
        rw [add_entry, if_neg (by omega)]
        by_cases hzero : entry.2 = 0
        · rw [hzero, if_neg (by omega), Int.toNat_zero,
            CycleHistogram.increment_zero result (hl entry (by simp))]
          rfl
        · rw [if_pos (by omega)]
      rw [List.foldlM_cons, hone, List.map_cons, CycleHistogram.record_cons]
      congr 1
      funext middle
      exact ih (fun e he => hl e (List.mem_cons_of_mem _ he))
        (fun e he => hpos e (List.mem_cons_of_mem _ he)) middle

theorem tally_toList (totals : Std.ExtTreeMap Nat Int) (k : Nat) :
    CycleHistogram.tally (totals.toList.map fun entry => (entry.1, entry.2.toNat)) k =
      (totals.getD k 0).toNat := by
  have hdistinct : (totals.toList.map fun entry => (entry.1, entry.2.toNat)).Pairwise
      fun a b => a.1 ≠ b.1 := by
    rw [List.pairwise_map]
    exact Std.ExtTreeMap.distinct_keys_toList.imp fun h => by simpa using h
  rw [Std.ExtTreeMap.getD_eq_getD_getElem?]
  cases he : totals[k]? with
  | none =>
      refine CycleHistogram.tally_of_not_mem fun event hm hk => ?_
      obtain ⟨⟨key, total⟩, hentry, rfl⟩ := List.mem_map.mp hm
      rw [Std.ExtTreeMap.mem_toList_iff_getElem?_eq_some, show key = k from hk, he] at hentry
      cases hentry
  | some total =>
      exact CycleHistogram.tally_of_mem hdistinct (List.mem_map_of_mem
        (Std.ExtTreeMap.mem_toList_iff_getElem?_eq_some.mpr he))

theorem getD_signed_entries {base : CycleHistogram} (hsmall : ∀ k, base.count k < 2 ^ 63) (k : Nat) :
    (base.entries.map fun _ count => to_signed count).getD k 0 = base.count k := by
  rw [CycleHistogram.count_eq, Std.ExtTreeMap.getD_eq_getD_getElem?, Std.ExtTreeMap.getElem?_map]
  cases he : base.entries[k]? with
  | none => rfl
  | some count =>
      have := hsmall k
      rw [CycleHistogram.count_eq, he, Option.getD_some] at this
      rw [Option.map_some, Option.getD_some, Option.getD_some, to_signed_eq this]

-- Totals in range are the counts of a histogram.
theorem histogram_of_totals {totals : Std.ExtTreeMap Nat Int} (hkeys : ∀ key ∈ totals, 2 ≤ key)
    (hbounds : ∀ k, 0 ≤ totals.getD k 0 ∧ totals.getD k 0 < 2 ^ 63) :
    ∃ histogram, totals.toList.foldlM add_entry ∅ = .ok histogram ∧ histogram.Canonical ∧
      ∀ k, (histogram.count k : Int) = totals.getD k 0 := by
  have hentry : ∀ entry ∈ totals.toList, 2 ≤ entry.1 ∧ 0 ≤ entry.2 := by
    rintro ⟨key, total⟩ hm
    rw [Std.ExtTreeMap.mem_toList_iff_getElem?_eq_some] at hm
    have hpos := (hbounds key).1
    rw [Std.ExtTreeMap.getD_eq_getD_getElem?, hm] at hpos
    exact ⟨hkeys key (Std.ExtTreeMap.mem_iff_isSome_getElem?.mpr (by simp [hm])), hpos⟩
  have hevents : ∀ event ∈ totals.toList.map fun entry => (entry.1, entry.2.toNat),
      2 ≤ event.1 := fun event hm => by
    obtain ⟨entry, he, rfl⟩ := List.mem_map.mp hm
    exact (hentry entry he).1
  have hfit : (∅ : CycleHistogram).Fits (totals.toList.map fun entry => (entry.1, entry.2.toNat)) := by
    intro k
    have := hbounds k
    rw [CycleHistogram.count_empty, tally_toList, MAX_COUNT]
    omega
  obtain ⟨histogram, hrecord, hcount, hcanonical⟩ := CycleHistogram.record_ok ∅ _ hevents hfit
  refine ⟨histogram, ?_, hcanonical CycleHistogram.canonical_empty, fun k => ?_⟩
  · rw [foldlM_add_entry _ (fun entry he => (hentry entry he).1) fun entry he =>
      (hentry entry he).2, hrecord]
  · have := (hbounds k).1
    rw [hcount, CycleHistogram.count_empty, tally_toList]
    omega

-- A delta that leaves every count in range is applied as it stands.
theorem apply_histogram_delta_eq {base : CycleHistogram} (hbase : base.Canonical)
    (hmax : 2 ≤ max_cycle_length) (hsize : delta.length = max_cycle_length + 1)
    (hsmall : ∀ k, base.count k < 2 ^ 63)
    (hfits : ∀ k, 2 ≤ k → k ≤ max_cycle_length → (delta.getD k 0 ≠ 0 → k < 2 ^ 32) ∧
      0 ≤ (base.count k : Int) + delta.getD k 0 ∧ (base.count k : Int) + delta.getD k 0 < 2 ^ 63) :
    ∃ histogram, apply_histogram_delta base delta max_cycle_length = .ok histogram ∧
      histogram.Canonical ∧ ∀ k, (histogram.count k : Int) =
        base.count k + if 2 ≤ k ∧ k ≤ max_cycle_length then delta.getD k 0 else 0 := by
  have hlengths : (List.range' 2 (max_cycle_length - 1)).takeWhile (· < delta.length) =
      List.range' 2 (max_cycle_length - 1) := List.takeWhile_eq_self_iff.mpr fun k hk => by
    have := (mem_lengths hmax).mp hk
    simp only [decide_eq_true_eq]
    omega
  obtain ⟨totals, hrun, hvalue, hkeys⟩ := foldlM_add_total List.nodup_range'
    (base.entries.map fun _ count => to_signed count) fun k hk => by
      obtain ⟨h₁, h₂⟩ := (mem_lengths hmax).mp hk
      obtain ⟨hnarrow, hlow, hhigh⟩ := hfits k h₁ h₂
      rw [getD_signed_entries hsmall]
      exact ⟨hnarrow, by omega, hhigh⟩
  have htotal : ∀ k, totals.getD k 0 =
      base.count k + if 2 ≤ k ∧ k ≤ max_cycle_length then delta.getD k 0 else 0 := fun k => by
    rw [hvalue, getD_signed_entries hsmall]
    simp only [mem_lengths hmax]
  have hlong : ∀ key ∈ totals, 2 ≤ key := by
    intro key hm
    rcases hkeys key hm with hk | hk
    · rw [Std.ExtTreeMap.mem_map, Std.ExtTreeMap.mem_iff_isSome_getElem?,
        Option.isSome_iff_exists] at hk
      obtain ⟨count, hc⟩ := hk
      exact (hbase key count hc).1
    · exact ((mem_lengths hmax).mp hk).1
  obtain ⟨histogram, happly, hcanonical, hcount⟩ := histogram_of_totals hlong fun k => by
    have := hsmall k
    rw [htotal]
    split_ifs with hk
    · exact (hfits k hk.1 hk.2).2
    · omega
  refine ⟨histogram, ?_, hcanonical, fun k => (hcount k).trans (htotal k)⟩
  rw [apply_histogram_delta, hlengths, hrun]
  exact happly

end Totals

section Phase

variable {graph : DirectedGraph} {changes : List EdgeChange} {max_length : Nat}

def arc_of (change : EdgeChange) : Nat × Nat := (change.source, change.target)

-- The cycles of each length that the change with this id owns.
noncomputable def owned_number (graph : DirectedGraph) (changes : List EdgeChange)
    (round : EdgeChange × Nat) (k : Nat) : Nat :=
  (owned_cycles (fun a b => b ∈ graph.row a) k ((changes.take round.2).map arc_of)
    (arc_of round.1)).ncard

noncomputable def phase_number (graph : DirectedGraph) (changes : List EdgeChange) (k : Nat) : Nat :=
  (changes.zipIdx.map fun round => owned_number graph changes round k).sum

-- Changes of one phase: different edges of the graph of the phase.
structure PhaseChanges (graph : DirectedGraph) (changes : List EdgeChange) : Prop where
  nodup : changes.Nodup
  edges : ∀ change ∈ changes, change.target ∈ graph.row change.source

theorem PhaseChanges.narrow (hc : PhaseChanges graph changes) (hg : graph.Sorted) :
    ∀ change ∈ changes, change.target < 2 ^ 32 :=
  fun change hm => hg.narrow _ _ (hc.edges change hm)

theorem mem_arcs {changes : List EdgeChange} {a b : Nat} :
    (a, b) ∈ changes.map arc_of ↔ ⟨a, b⟩ ∈ changes := by
  constructor
  · intro h
    obtain ⟨⟨s, t⟩, hm, he⟩ := List.mem_map.mp h
    obtain ⟨rfl, rfl⟩ := Prod.mk.inj he
    exact hm
  · exact fun h => List.mem_map.mpr ⟨_, h, rfl⟩

theorem phase_number_eq (graph : DirectedGraph) (changes : List EdgeChange) (k : Nat) :
    phase_number graph changes k = ((changes.map arc_of).zipIdx.map fun arc =>
      (owned_cycles (fun a b => b ∈ graph.row a) k ((changes.map arc_of).take arc.2) arc.1).ncard).sum := by
  rw [phase_number, List.zipIdx_map, List.map_map]
  congr 1
  refine List.map_congr_left fun round _ => ?_
  rw [owned_number, List.map_take]
  rfl

-- A phase never counts more cycles than its graph has.
theorem phase_number_le {k : Nat} (hfin : (cycles_of (fun a b => b ∈ graph.row a) k).Finite)
    (changes : List EdgeChange) :
    phase_number graph changes k ≤ (cycles_of (fun a b => b ∈ graph.row a) k).ncard := by
  rw [phase_number_eq, ncard_avoiding hfin (changes.map arc_of)]
  omega

-- The successors that the index leaves are those off the changes before.
theorem owned_successors_read (hg : graph.Sorted) (hc : ∀ change ∈ changes, change.target < 2 ^ 32)
    (owner_id : Nat) :
    owned_successors graph (ChangedEdgeIndex.of_changes changes) owner_id =
      succ_avoiding graph.read_row ((changes.take owner_id).map arc_of) := by
  funext a
  unfold owned_successors
  refine List.filter_congr fun b hb => ?_
  have hiff := forbidden_before_iff hc a b owner_id
    (hg.narrow a b (DirectedGraph.mem_row_of_read hg.start hb))
  rw [← mem_arcs] at hiff
  by_cases hm : (a, b) ∈ (changes.take owner_id).map arc_of
  · rw [hiff.mpr hm, decide_eq_false (not_not_intro hm)]
    rfl
  · rw [Bool.eq_false_iff.mpr fun h => hm (hiff.mp h), decide_eq_true hm]
    rfl

theorem owned_successors_eq (hg : graph.Sorted) (hids : graph.vertex_count < 2 ^ 32)
    (hc : ∀ change ∈ changes, change.target < 2 ^ 32) (owner_id : Nat) :
    owned_successors graph (ChangedEdgeIndex.of_changes changes) owner_id =
      succ_avoiding graph.row ((changes.take owner_id).map arc_of) := by
  rw [owned_successors_read hg hc, hg.whole hids]

-- The cycles of an owner, found from its target.
theorem owned_number_closings (hg : graph.Sorted) (hn : changes.Nodup) {round : EdgeChange × Nat}
    (hr : round ∈ changes.zipIdx) (hedge : round.1.target ∈ graph.row round.1.source)
    (hne : round.1.source ≠ round.1.target) {k : Nat} (hk : k ≤ max_length) :
    owned_number graph changes round k =
      (closings (succ_avoiding graph.row ((changes.take round.2).map arc_of)) round.1.source
        (some max_length) graph.vertex_count
        [round.1.target, round.1.source]).countP (·.length = k) := by
  obtain ⟨change, owner_id⟩ := round
  have hget := List.mk_mem_zipIdx_iff_getElem?.mp hr
  have hown : (change.source, change.target) ∉ (changes.take owner_id).map arc_of := by
    rw [mem_arcs, List.mem_take_iff_getElem]
    rintro ⟨j, hj, he⟩
    obtain ⟨hlt, hget⟩ := List.getElem?_eq_some_iff.mp hget
    have := (hn.getElem_inj_iff).mp (he.trans hget.symm)
    omega
  exact ncard_owned graph.vertex_count hg.row_nodup hne.symm hedge hown
    (fun a b hb => List.mem_range.mpr (hg.bounded a b hb)) (by simp) (by simpa using hk)

theorem owned_number_eq (hg : graph.Sorted) (hids : graph.vertex_count < 2 ^ 32) (hn : changes.Nodup)
    (hnarrow : ∀ change ∈ changes, change.target < 2 ^ 32) {round : EdgeChange × Nat}
    (hr : round ∈ changes.zipIdx) (hedge : round.1.target ∈ graph.row round.1.source)
    (hne : round.1.source ≠ round.1.target) {k : Nat} (hk : k ≤ max_length) :
    owned_number graph changes round k =
      (closings (owned_successors graph (ChangedEdgeIndex.of_changes changes) round.2)
        round.1.source (some max_length) graph.vertex_count
        [round.1.target, round.1.source]).countP (·.length = k) := by
  rw [owned_successors_eq hg hids hnarrow]
  exact owned_number_closings hg hn hr hedge hne hk

-- One change adds the cycles that it owns.
theorem count_round (hg : graph.WellFormed) (hc : PhaseChanges graph changes) (hmax : 2 ≤ max_length)
    {round : EdgeChange × Nat} (hr : round ∈ changes.zipIdx)
    (hsmall : ∀ k, 2 ≤ k → k ≤ max_length → owned_number graph changes round k < 2 ^ 63)
    {buffer : VisitedBuffer} (hclear : buffer.visited = Flags.none) :
    ∃ counts buffer', count_cycles_through_edge graph round.1.source round.1.target round.2
        (ChangedEdgeIndex.of_changes changes) max_length (List.replicate (max_length + 1) 0) buffer =
          .ok (counts, buffer') ∧
      buffer'.visited = Flags.none ∧ counts.length = max_length + 1 ∧
      ∀ k, 2 ≤ k → k ≤ max_length → counts.getD k 0 = owned_number graph changes round k := by
  have hedge := hc.edges round.1 (List.fst_mem_of_mem_zipIdx hr)
  obtain ⟨buffer', hrun, hclear'⟩ := count_cycles_through_edge_eq hg.sorted.read_bounded
    (hg.source_lt hedge) (hg.bounded _ _ hedge) hmax (List.replicate (max_length + 1) 0) hclear
  refine ⟨_, buffer', hrun, hclear', by simp, fun k h₁ h₂ => ?_⟩
  have hzero : (List.replicate (max_length + 1) 0).getD k 0 = 0 := by
    rw [List.getD_replicate]
    omega
  have hlt := hsmall k h₁ h₂
  have hne : round.1.source ≠ round.1.target := fun he =>
    hg.no_loop round.1.source (he ▸ hedge)
  rw [owned_number_eq hg.sorted hg.ids hc.nodup (hc.narrow hg.sorted) hr hedge hne h₂] at hlt ⊢
  rw [count_all_getD _ _ (by rw [List.length_replicate]; omega) (by rw [hzero]; omega), hzero,
    Nat.zero_add]

-- What the changes count adds up, whatever that is for each of them.
theorem accumulate_rounds {number : EdgeChange × Nat → Nat → Nat} (hmax : 2 ≤ max_length)
    {sign : Int} (hsign : sign = 1 ∨ sign = -1) (rounds : List (EdgeChange × Nat))
    (hcount : ∀ round ∈ rounds, (∀ k, 2 ≤ k → k ≤ max_length → number round k < 2 ^ 63) →
      ∀ buffer : VisitedBuffer, buffer.visited = Flags.none →
        ∃ counts buffer', count_cycles_through_edge graph round.1.source round.1.target round.2
            (ChangedEdgeIndex.of_changes changes) max_length (List.replicate (max_length + 1) 0)
            buffer = .ok (counts, buffer') ∧
          buffer'.visited = Flags.none ∧ counts.length = max_length + 1 ∧
          ∀ k, 2 ≤ k → k ≤ max_length → counts.getD k 0 = number round k)
    (delta : List Int) (buffer : VisitedBuffer) (hsize : delta.length = max_length + 1)
    (hclear : buffer.visited = Flags.none)
    (hfits : ∀ k, 2 ≤ k → k ≤ max_length →
      (rounds.map fun round => number round k).sum < 2 ^ 63 ∧
      Signed (delta.getD k 0) ∧ Signed (delta.getD k 0 +
        sign * ((rounds.map fun round => number round k).sum : Int))) :
    ∃ delta' buffer', rounds.foldlM (fun (delta, buffer) (change, owner_id) => do
        let (counts, buffer) ← count_cycles_through_edge graph change.source change.target owner_id
          (ChangedEdgeIndex.of_changes changes) max_length (List.replicate (max_length + 1) 0) buffer
        let delta ← (List.range' 2 (max_length - 1)).foldlM (add_counts sign counts) delta
        return (delta, buffer)) (delta, buffer) = Except.ok (delta', buffer') ∧
      delta'.length = max_length + 1 ∧ buffer'.visited = Flags.none ∧
      ∀ k, 2 ≤ k → k ≤ max_length → delta'.getD k 0 = delta.getD k 0 +
        sign * ((rounds.map fun round => number round k).sum : Int) := by
  induction rounds generalizing delta buffer with
  | nil => exact ⟨delta, buffer, rfl, hsize, hclear, by simp⟩
  | cons round rounds ih =>
      simp only [List.map_cons, List.sum_cons, Int.natCast_add] at hfits ⊢
      obtain ⟨counts, buffer₁, hone, hclear₁, hlength, hcounts⟩ := hcount round (by simp)
        (fun k h₁ h₂ => by have := (hfits k h₁ h₂).1; omega) buffer hclear
      have hbetween : ∀ k, 2 ≤ k → k ≤ max_length → Signed (delta.getD k 0 +
          sign * (number round k : Int)) := by
        intro k h₁ h₂
        obtain ⟨-, hlow, hhigh⟩ := hfits k h₁ h₂
        unfold Signed at hlow hhigh ⊢
        rcases hsign with rfl | rfl <;> omega
      obtain ⟨delta₁, hadd, hsize₁, hdelta₁⟩ := add_counts_eq counts hmax hsign hlength hsize
        fun k h₁ h₂ => by
          rw [hcounts k h₁ h₂]
          exact ⟨by have := (hfits k h₁ h₂).1; omega, hbetween k h₁ h₂⟩
      obtain ⟨delta', buffer', hrun, hsize', hclear', hdelta'⟩ := ih
        (fun r hr => hcount r (List.mem_cons_of_mem _ hr)) delta₁ buffer₁ hsize₁ hclear₁
        fun k h₁ h₂ => by
          obtain ⟨hsmall, -, hhigh⟩ := hfits k h₁ h₂
          rw [hdelta₁ k h₁ h₂, hcounts k h₁ h₂]
          exact ⟨by omega, hbetween k h₁ h₂, by rwa [Int.add_assoc, ← Int.mul_add]⟩
      refine ⟨delta', buffer', ?_, hsize', hclear', fun k h₁ h₂ => ?_⟩
      · rw [List.foldlM_cons]
        dsimp only
        rw [hone]
        change ((List.foldlM (add_counts sign counts) delta _).bind _).bind _ = _
        rw [hadd]
        exact hrun
      · rw [hdelta' k h₁ h₂, hdelta₁ k h₁ h₂, hcounts k h₁ h₂, Int.add_assoc, ← Int.mul_add]

-- Where the vectors can be made, they have a place for every length.
theorem accumulate_phase_places (hplaces : places max_length = max_length + 1) (sign : Int)
    (delta : List Int) (buffer : VisitedBuffer) :
    accumulate_phase graph changes max_length sign delta buffer =
      changes.zipIdx.foldlM (fun (delta, buffer) (change, owner_id) => do
        let (counts, buffer) ← count_cycles_through_edge graph change.source change.target owner_id
          (ChangedEdgeIndex.of_changes changes) max_length (List.replicate (max_length + 1) 0) buffer
        let delta ← (List.range' 2 (max_length - 1)).foldlM (add_counts sign counts) delta
        return (delta, buffer)) (delta, buffer) := by
  rw [accumulate_phase, hplaces]

theorem accumulate_phase_eq (hg : graph.WellFormed) (hc : PhaseChanges graph changes)
    (hmax : 2 ≤ max_length) (hplaces : places max_length = max_length + 1) {sign : Int}
    (hsign : sign = 1 ∨ sign = -1) (delta : List Int)
    (buffer : VisitedBuffer) (hsize : delta.length = max_length + 1)
    (hclear : buffer.visited = Flags.none)
    (hfits : ∀ k, 2 ≤ k → k ≤ max_length → phase_number graph changes k < 2 ^ 63 ∧
      Signed (delta.getD k 0) ∧
      Signed (delta.getD k 0 + sign * (phase_number graph changes k : Int))) :
    ∃ delta' buffer', accumulate_phase graph changes max_length sign delta buffer =
        .ok (delta', buffer') ∧
      delta'.length = max_length + 1 ∧ buffer'.visited = Flags.none ∧
      ∀ k, 2 ≤ k → k ≤ max_length →
        delta'.getD k 0 = delta.getD k 0 + sign * (phase_number graph changes k : Int) := by
  rw [accumulate_phase_places hplaces]
  exact accumulate_rounds hmax hsign changes.zipIdx
    (fun _ hr hsmall _ hclear => count_round hg hc hmax hr hsmall hclear) delta buffer hsize hclear
    hfits

end Phase

-- What is left of an update once both of its phases have returned.
theorem update_static_histogram_of_phases {graph : DirectedGraph} {histogram : CycleHistogram}
    {batch : EdgeBatch} {max_cycle_length : Nat} {buffer buffer₁ buffer₂ : VisitedBuffer}
    {delta₁ delta₂ : List Int} (hmax : ¬max_cycle_length < 2) {delta : List Int}
    (hdelta : make_delta max_cycle_length = .ok delta)
    (hdeleted : accumulate_phase graph (normalize batch).deletions max_cycle_length (-1)
      delta buffer = .ok (delta₁, buffer₁))
    (hinserted : accumulate_phase (apply_batch graph (normalize batch)) (normalize batch).insertions
      max_cycle_length 1 delta₁ buffer₁ = .ok (delta₂, buffer₂)) :
    update_static_histogram graph histogram batch max_cycle_length buffer =
      (apply_histogram_delta histogram delta₂ max_cycle_length).map
        fun histogram => (histogram, buffer₂) := by
  rw [update_static_histogram, if_neg hmax, hdelta]
  change (accumulate_phase _ _ _ _ _ _).bind _ = _
  rw [hdeleted]
  change (accumulate_phase _ _ _ _ _ _).bind _ = _
  rw [hinserted]
  change (apply_histogram_delta _ _ _).bind _ = _
  cases apply_histogram_delta histogram delta₂ max_cycle_length with
  | error error => rfl
  | ok histogram => rfl

end CycleEnum.Dynamic
