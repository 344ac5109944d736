import CycleEnum.Dynamic.UpdateSequential

namespace CycleEnum.Dynamic

-- The delta of a length, which is zero below 2, beyond the array and above the cap.
def applied_delta (delta : List Int) (max_cycle_length length : Nat) : Int :=
  if 2 ≤ length ∧ length ≤ max_cycle_length then delta.getD length 0 else 0

def exact_sum (base : CycleHistogram) (delta : List Int) (max_cycle_length length : Nat) : Int :=
  base.count length + applied_delta delta max_cycle_length length

def SumsFit (base : CycleHistogram) (delta : List Int) (max_cycle_length : Nat) : Prop :=
  ∀ length, 0 ≤ exact_sum base delta max_cycle_length length ∧
    exact_sum base delta max_cycle_length length ≤ MAX_COUNT

-- The delta is applied exactly where the sums fit, and an exception is thrown where they
-- do not, which reports a negative count only where there is one.
structure AppliesExactly (base : CycleHistogram) (delta : List Int) (max_cycle_length : Nat) :
    Prop where
  returns : SumsFit base delta max_cycle_length → ∃ histogram,
    apply_histogram_delta base delta max_cycle_length = .ok histogram ∧ histogram.Canonical ∧
      ∀ length, (histogram.count length : Int) = exact_sum base delta max_cycle_length length
  throws : ¬SumsFit base delta max_cycle_length → ∃ error,
    apply_histogram_delta base delta max_cycle_length = .error error ∧ error ≠ .undefined ∧
      ∀ text, error = .logic_error text →
        ∃ length, exact_sum base delta max_cycle_length length < 0

-- A count as `long long` with the delta entries up to `last` that have these low 32 bits.
def bin_total (base : CycleHistogram) (delta : List Int) (max_cycle_length last bin : Nat) : Int :=
  to_signed (base.count bin) + (((List.range (last + 1)).filter (length_of_size · = bin)).map
    (applied_delta delta max_cycle_length)).sum

section Totals

variable {base : CycleHistogram} {delta : List Int} {max_cycle_length : Nat}

theorem to_signed_bounds (count : Nat) : Signed (to_signed count) := by
  have hlow := Int.le_bmod (x := (count : Int)) (m := 2 ^ 64) (by decide)
  have hhigh := Int.bmod_lt (x := (count : Int)) (m := 2 ^ 64) (by decide)
  unfold Signed to_signed
  omega

theorem getD_map_signed (base : CycleHistogram) (bin : Nat) :
    (base.entries.map fun _ count => to_signed count).getD bin 0 = to_signed (base.count bin) := by
  rw [CycleHistogram.count_eq, Std.ExtTreeMap.getD_eq_getD_getElem?, Std.ExtTreeMap.getElem?_map]
  cases base.entries[bin]? with
  | none =>
      rw [Option.map_none, Option.getD_none, Option.getD_none, to_signed_eq (by decide)]
      simp
  | some count => rw [Option.map_some, Option.getD_some, Option.getD_some]

theorem bin_total_succ (base : CycleHistogram) (delta : List Int) (max_cycle_length last bin : Nat) :
    bin_total base delta max_cycle_length (last + 1) bin =
      bin_total base delta max_cycle_length last bin +
        if length_of_size (last + 1) = bin then applied_delta delta max_cycle_length (last + 1)
        else 0 := by
  rw [bin_total, bin_total, List.range_succ, List.filter_append, List.map_append, List.sum_append]
  by_cases hbin : length_of_size (last + 1) = bin
  · rw [List.filter_cons_of_pos (by simpa using hbin), if_pos hbin]
    simp
    omega
  · rw [List.filter_cons_of_neg (by simpa using hbin), if_neg hbin]
    simp

theorem bin_total_one (base : CycleHistogram) (delta : List Int) (max_cycle_length bin : Nat)
    {last : Nat} (h : last ≤ 1) :
    bin_total base delta max_cycle_length last bin = to_signed (base.count bin) := by
  have hzero : ∀ length, length ≤ 1 → applied_delta delta max_cycle_length length = 0 :=
    fun length hl => if_neg (by omega)
  rw [bin_total, List.sum_eq_zero fun total ht => ?_, Int.add_zero]
  obtain ⟨length, hl, rfl⟩ := List.mem_map.mp ht
  have := List.mem_range.mp (List.mem_filter.mp hl).1
  exact hzero length (by omega)

-- No addition up to `last` leaves the range of `long long`.
def AdditionsFit (base : CycleHistogram) (delta : List Int) (max_cycle_length last : Nat) : Prop :=
  ∀ length, length ≤ last → Signed (bin_total base delta max_cycle_length length
    (length_of_size length))

theorem add_total_step {totals : Std.ExtTreeMap Nat Int} {length : Nat}
    (hall : ∀ bin, Signed (totals.getD bin 0)) :
    (Signed (totals.getD (length_of_size length) 0 + delta.getD length 0) ∧
      ∃ totals', add_total delta totals length = .ok totals' ∧
        ∀ bin, totals'.getD bin 0 = totals.getD bin 0 +
          if length_of_size length = bin then delta.getD length 0 else 0) ∨
    (¬Signed (totals.getD (length_of_size length) 0 + delta.getD length 0) ∧
      add_total delta totals length = .error .undefined) := by
  unfold add_total
  by_cases hzero : delta.getD length 0 = 0
  · refine Or.inl ⟨by rw [hzero, Int.add_zero]; exact hall _, totals, by rw [if_pos hzero]; rfl,
      fun bin => ?_⟩
    rw [hzero, ite_self, Int.add_zero]
  · rw [if_neg hzero]
    by_cases hfits : Signed (totals.getD (length_of_size length) 0 + delta.getD length 0)
    · rw [signed_ok hfits]
      refine Or.inl ⟨hfits, _, rfl, fun bin => ?_⟩
      rw [Std.ExtTreeMap.getD_insert]
      by_cases hbin : length_of_size length = bin
      · simp [hbin]
      · rw [if_neg fun he => hbin (compare_eq_iff_eq.mp he), if_neg hbin, Int.add_zero]
    · refine Or.inr ⟨hfits, ?_⟩
      rw [signed, if_neg hfits]
      rfl

-- The loop over the delta either leaves the bins' totals or runs into an overflow.
theorem foldlM_add_total_cases (count : Nat)
    (happlied : ∀ length, 2 ≤ length → length < 2 + count →
      applied_delta delta max_cycle_length length = delta.getD length 0) :
    (AdditionsFit base delta max_cycle_length (1 + count) ∧ ∃ totals,
      (List.range' 2 count).foldlM (add_total delta)
        (base.entries.map fun _ count => to_signed count) = .ok totals ∧
      ∀ bin, totals.getD bin 0 = bin_total base delta max_cycle_length (1 + count) bin ∧
        Signed (totals.getD bin 0)) ∨
    (¬AdditionsFit base delta max_cycle_length (1 + count) ∧
      (List.range' 2 count).foldlM (add_total delta)
        (base.entries.map fun _ count => to_signed count) = .error .undefined) := by
  induction count with
  | zero =>
      refine Or.inl ⟨fun length hl => ?_, _, rfl, fun bin => ?_⟩
      · rw [bin_total_one base delta max_cycle_length _ hl]
        exact to_signed_bounds _
      · rw [getD_map_signed, bin_total_one base delta max_cycle_length bin (Nat.le_refl 1)]
        exact ⟨rfl, to_signed_bounds _⟩
  | succ count ih =>
      have hlast := happlied (2 + count) (by omega) (by omega)
      have hnext : 1 + (count + 1) = 1 + count + 1 := by omega
      rw [List.range'_1_concat, List.foldlM_append, hnext]
      rcases ih fun length h₁ h₂ => happlied length h₁ (by omega) with
        ⟨hfit, totals, hrun, htotals⟩ | ⟨hover, hrun⟩
      · have hbin : ∀ bin, bin_total base delta max_cycle_length (1 + count + 1) bin =
            totals.getD bin 0 + if length_of_size (2 + count) = bin then delta.getD (2 + count) 0
              else 0 := by
          intro bin
          rw [bin_total_succ, ← (htotals bin).1, show 1 + count + 1 = 2 + count by omega, hlast]
        rw [hrun]
        rcases @add_total_step delta totals (2 + count) fun bin => (htotals bin).2 with
          ⟨hsigned, totals', hone, hvalue⟩ | ⟨hsigned, herror⟩
        · refine Or.inl ⟨fun length hl => ?_, totals', ?_, fun bin => ?_⟩
          · rcases Nat.lt_or_eq_of_le hl with hlt | rfl
            · exact hfit length (by omega)
            · rw [hbin, show 1 + count + 1 = 2 + count by omega, if_pos rfl]
              exact hsigned
          · change (List.foldlM (add_total delta) totals [2 + count]) = _
            rw [List.foldlM_cons, hone]
            rfl
          · refine ⟨(hvalue bin).trans (hbin bin).symm, ?_⟩
            rw [hvalue]
            by_cases heq : length_of_size (2 + count) = bin
            · rw [if_pos heq, ← heq]
              exact hsigned
            · rw [if_neg heq, Int.add_zero]
              exact (htotals bin).2
        · refine Or.inr ⟨fun hall => hsigned ?_, ?_⟩
          · have hthis := hall (1 + count + 1) (Nat.le_refl _)
            rwa [hbin, show 1 + count + 1 = 2 + count by omega, if_pos rfl] at hthis
          · change (List.foldlM (add_total delta) totals [2 + count]) = _
            rw [List.foldlM_cons, herror]
            rfl
      · rw [hrun]
        exact Or.inr ⟨fun hall => hover fun length hl => hall length (by omega), rfl⟩

end Totals

section Entries

-- An entry that ends the loop over the totals with an error.
def BadEntry (entry : Nat × Int) : Prop := entry.2 < 0 ∨ 0 < entry.2 ∧ entry.1 < 2

instance (entry : Nat × Int) : Decidable (BadEntry entry) :=
  inferInstanceAs (Decidable (_ ∨ _))

theorem foldlM_add_entry_good (entries : List (Nat × Int))
    (h : ∀ entry ∈ entries, ¬BadEntry entry) (result : CycleHistogram) :
    entries.foldlM add_entry result = result.record
      ((entries.filter (0 < ·.2)).map fun entry => (entry.1, entry.2.toNat)) := by
  induction entries generalizing result with
  | nil => rfl
  | cons entry entries ih =>
      have hentry : ¬BadEntry entry := h entry List.mem_cons_self
      have hrest := ih fun other ho => h other (List.mem_cons_of_mem entry ho)
      unfold BadEntry at hentry
      rw [List.foldlM_cons, add_entry, if_neg (show ¬entry.2 < 0 by omega)]
      by_cases hpos : 0 < entry.2
      · rw [if_pos hpos, List.filter_cons_of_pos (by simpa using hpos), List.map_cons,
          CycleHistogram.record_cons]
        congr 1
        funext middle
        exact hrest middle
      · rw [if_neg (show ¬entry.2 > 0 from hpos), List.filter_cons_of_neg (by simpa using hpos)]
        exact hrest result

theorem add_entry_bad {entry : Nat × Int} (h : BadEntry entry) (result : CycleHistogram) :
    (entry.2 < 0 ∧ add_entry result entry =
        .error (.logic_error "dynamic update produced a negative cycle count")) ∨
      (0 < entry.2 ∧ entry.1 < 2 ∧ add_entry result entry =
        .error (.invalid_argument "cycle length must be at least 2")) := by
  rcases h with hneg | ⟨hpos, hshort⟩
  · exact Or.inl ⟨hneg, by rw [add_entry, if_pos hneg]; rfl⟩
  · refine Or.inr ⟨hpos, hshort, ?_⟩
    rw [add_entry, if_neg (by omega), if_pos hpos, CycleHistogram.increment,
      CycleHistogram.ensure_valid_length, if_pos hshort]
    rfl

theorem tally_filter_pos (entries : List (Nat × Int)) (k : Nat) :
    CycleHistogram.tally
        ((entries.filter (0 < ·.2)).map fun entry => (entry.1, entry.2.toNat)) k =
      CycleHistogram.tally (entries.map fun entry => (entry.1, entry.2.toNat)) k := by
  induction entries with
  | nil => rfl
  | cons entry entries ih =>
      by_cases hpos : 0 < entry.2
      · rw [List.filter_cons_of_pos (by simpa using hpos), List.map_cons, List.map_cons,
          CycleHistogram.tally_cons, CycleHistogram.tally_cons, ih]
      · have hzero : entry.2.toNat = 0 := by omega
        rw [List.filter_cons_of_neg (by simpa using hpos), List.map_cons,
          CycleHistogram.tally_cons, ih, hzero, ite_self, Nat.zero_add]

variable {totals : Std.ExtTreeMap Nat Int}

theorem mem_toList_iff {key : Nat} {total : Int} (h : total ≠ 0) :
    (key, total) ∈ totals.toList ↔ totals.getD key 0 = total := by
  rw [Std.ExtTreeMap.mem_toList_iff_getElem?_eq_some, Std.ExtTreeMap.getD_eq_getD_getElem?]
  cases totals[key]? with
  | none =>
      rw [Option.getD_none]
      exact ⟨fun heq => (by cases heq), fun heq => absurd heq.symm h⟩
  | some found => rw [Option.getD_some, Option.some.injEq]

theorem getD_of_mem_toList {entry : Nat × Int} (h : entry ∈ totals.toList) :
    totals.getD entry.1 0 = entry.2 := by
  have hfound := Std.ExtTreeMap.mem_toList_iff_getElem?_eq_some.mp
    (show (entry.1, entry.2) ∈ totals.toList from h)
  rw [Std.ExtTreeMap.getD_eq_getD_getElem?, hfound, Option.getD_some]

-- The increments of the positive totals fit, as every bin has one.
theorem record_totals (hmax : ∀ k, totals.getD k 0 < 2 ^ 63) {entries : List (Nat × Int)}
    (hsub : entries.Sublist totals.toList) (hgood : ∀ entry ∈ entries, ¬BadEntry entry) :
    ∃ histogram, entries.foldlM add_entry ∅ = .ok histogram ∧ histogram.Canonical ∧
      ∀ k, histogram.count k =
        CycleHistogram.tally (entries.map fun entry => (entry.1, entry.2.toNat)) k := by
  have hlong : ∀ event ∈ (entries.filter (0 < ·.2)).map fun entry => (entry.1, entry.2.toNat),
      2 ≤ event.1 := by
    intro event he
    obtain ⟨entry, hentry, rfl⟩ := List.mem_map.mp he
    obtain ⟨hm, hpos⟩ := List.mem_filter.mp hentry
    have hbad := hgood entry hm
    simp only [decide_eq_true_eq] at hpos
    unfold BadEntry at hbad
    dsimp only
    omega
  obtain ⟨histogram, hrecord, hcount, hcanonical⟩ := CycleHistogram.record_ok ∅ _ hlong fun k => by
    have hle := CycleHistogram.tally_le
      (hsub.map fun entry : Nat × Int => (entry.1, entry.2.toNat)).subperm k
    have := hmax k
    rw [tally_toList] at hle
    rw [CycleHistogram.count_empty, tally_filter_pos, MAX_COUNT]
    omega
  refine ⟨histogram, by rw [foldlM_add_entry_good entries hgood, hrecord],
    hcanonical CycleHistogram.canonical_empty, fun k => ?_⟩
  rw [hcount, CycleHistogram.count_empty, tally_filter_pos, Nat.zero_add]

-- Totals that make an error of a length below 2.
def ShortTotal (total : Nat → Int) : Prop := 0 < total 0 ∨ total 0 = 0 ∧ 0 < total 1

-- The entry of least length that ends the loop with an error.
structure FirstBad (totals : Std.ExtTreeMap Nat Int) (entry : Nat × Int) : Prop where
  value : totals.getD entry.1 0 = entry.2
  bad : BadEntry entry
  least : ∀ k, BadEntry (k, totals.getD k 0) → entry.1 ≤ k

theorem short_total_getD_iff : ShortTotal (totals.getD · 0) ↔
    0 < totals.getD 0 0 ∨ totals.getD 0 0 = 0 ∧ 0 < totals.getD 1 0 := Iff.rfl

theorem FirstBad.short_total_iff {entry : Nat × Int} (h : FirstBad totals entry) :
    ShortTotal (totals.getD · 0) ↔ 0 < entry.2 := by
  have hvalue := h.value
  rw [short_total_getD_iff]
  constructor
  · rintro (hzero | ⟨hzero, hone⟩)
    · have hle := h.least 0 (Or.inr ⟨hzero, Nat.zero_lt_two⟩)
      rw [show entry.1 = 0 by omega] at hvalue
      omega
    · have hle := h.least 1 (Or.inr ⟨hone, Nat.one_lt_two⟩)
      rcases (show entry.1 = 0 ∨ entry.1 = 1 by omega) with heq | heq
      · rw [heq] at hvalue
        have hbad := h.bad
        unfold BadEntry at hbad
        omega
      · rw [heq] at hvalue
        omega
  · intro hpos
    have hbad := h.bad
    unfold BadEntry at hbad
    rcases (show entry.1 = 0 ∨ entry.1 = 1 by omega) with heq | heq
    · rw [heq] at hvalue
      exact Or.inl (by omega)
    · rw [heq] at hvalue
      refine Or.inr ⟨?_, by omega⟩
      by_contra hne
      have := h.least 0 (by unfold BadEntry; omega)
      omega

theorem mem_toList_of_bad {k : Nat} (h : BadEntry (k, totals.getD k 0)) :
    (k, totals.getD k 0) ∈ totals.toList := by
  have hne : totals.getD k 0 ≠ 0 := by
    unfold BadEntry at h
    omega
  exact (mem_toList_iff hne).mpr rfl

-- The entries are visited by length, so the loop ends at the first bad one.
theorem exists_first_bad (hmax : ∀ k, totals.getD k 0 < 2 ^ 63)
    (h : ∃ entry ∈ totals.toList, BadEntry entry) :
    ∃ entry middle, FirstBad totals entry ∧ ∀ error, add_entry middle entry = .error error →
      totals.toList.foldlM add_entry ∅ = .error error := by
  cases hfind : totals.toList.find? fun entry => decide (BadEntry entry) with
  | none =>
      obtain ⟨entry, he, hentry⟩ := h
      exact absurd hentry (by simpa using List.find?_eq_none.mp hfind entry he)
  | some entry =>
      obtain ⟨hentry, before, after, hsplit, hbefore⟩ := List.find?_eq_some_iff_append.mp hfind
      simp only [decide_eq_true_eq] at hentry
      have hgood : ∀ other ∈ before, ¬BadEntry other := fun other ho => by
        simpa using hbefore other ho
      have hmem : entry ∈ totals.toList := hsplit ▸ List.mem_append_right _ List.mem_cons_self
      obtain ⟨middle, hmiddle, -⟩ := record_totals hmax
        (hsplit ▸ List.sublist_append_left before (entry :: after)) hgood
      refine ⟨entry, middle, ⟨getD_of_mem_toList hmem, hentry, fun k hk => ?_⟩, fun error herror => ?_⟩
      · have ho := mem_toList_of_bad hk
        have hsorted : totals.toList.Pairwise fun a b => a.1 < b.1 :=
          Std.ExtTreeMap.ordered_keys_toList.imp fun hlt => Nat.compare_eq_lt.mp hlt
        rw [hsplit] at ho hsorted
        rcases List.mem_append.mp ho with ho | ho
        · exact absurd hk (hgood _ ho)
        · rcases List.mem_cons.mp ho with heq | ho
          · rw [← heq]
          · have htail := (List.pairwise_append.mp hsorted).2.1
            exact Nat.le_of_lt ((List.pairwise_cons.mp htail).1 _ ho)
      · rw [hsplit, List.foldlM_append, hmiddle]
        change List.foldlM add_entry middle (entry :: after) = _
        rw [List.foldlM_cons, herror]
        rfl

theorem foldlM_add_entry_cases (hmax : ∀ k, totals.getD k 0 < 2 ^ 63) :
    (ShortTotal (totals.getD · 0) ∧ totals.toList.foldlM add_entry ∅ =
      .error (.invalid_argument "cycle length must be at least 2")) ∨
    (¬ShortTotal (totals.getD · 0) ∧ (∃ k, totals.getD k 0 < 0) ∧
      totals.toList.foldlM add_entry ∅ =
        .error (.logic_error "dynamic update produced a negative cycle count")) ∨
    (¬ShortTotal (totals.getD · 0) ∧ (∀ k, 0 ≤ totals.getD k 0) ∧ ∃ histogram,
      totals.toList.foldlM add_entry ∅ = .ok histogram ∧ histogram.Canonical ∧
      ∀ k, (histogram.count k : Int) = totals.getD k 0) := by
  by_cases hsome : ∃ entry ∈ totals.toList, BadEntry entry
  · obtain ⟨entry, middle, hfirst, hrun⟩ := exists_first_bad hmax hsome
    rw [hfirst.short_total_iff]
    rcases add_entry_bad hfirst.bad middle with ⟨hneg, herror⟩ | ⟨hpos, -, herror⟩
    · exact Or.inr (Or.inl ⟨by omega, ⟨entry.1, hfirst.value.trans_lt hneg⟩, hrun _ herror⟩)
    · exact Or.inl ⟨hpos, hrun _ herror⟩
  · have hgood : ∀ entry ∈ totals.toList, ¬BadEntry entry := fun entry he hentry =>
      hsome ⟨entry, he, hentry⟩
    have hnot : ∀ k, ¬(totals.getD k 0 < 0 ∨ 0 < totals.getD k 0 ∧ k < 2) := fun k hk =>
      hgood _ (mem_toList_of_bad hk) hk
    obtain ⟨histogram, hok, hcanonical, hcount⟩ :=
      record_totals hmax (List.Sublist.refl _) hgood
    have hpos : ∀ k, 0 ≤ totals.getD k 0 := fun k => by
      have := hnot k
      omega
    have hshort : ¬ShortTotal (totals.getD · 0) := by
      have hzero := hnot 0
      have hone := hnot 1
      rw [short_total_getD_iff]
      omega
    refine Or.inr (Or.inr ⟨hshort, hpos, histogram, hok, hcanonical, fun k => ?_⟩)
    have := hpos k
    rw [hcount, tally_toList]
    omega

end Entries

section Exact

variable {base : CycleHistogram} {delta : List Int} {max_cycle_length : Nat}

theorem takeWhile_range'_lt (start count bound : Nat) :
    (List.range' start count).takeWhile (· < bound) =
      List.range' start (min count (bound - start)) := by
  induction count generalizing start with
  | zero => simp
  | succ count ih =>
      by_cases hlt : start < bound
      · rw [List.range'_succ, List.takeWhile_cons_of_pos (by simpa using hlt), ih,
          show min (count + 1) (bound - start) = min count (bound - (start + 1)) + 1 by omega,
          List.range'_succ]
      · rw [List.range'_succ, List.takeWhile_cons_of_neg (by simpa using hlt),
          show min (count + 1) (bound - start) = 0 by omega, List.range'_zero]

theorem bin_total_beyond {last last' : Nat} (hle : last ≤ last')
    (h : ∀ length, last < length → applied_delta delta max_cycle_length length = 0) (bin : Nat) :
    bin_total base delta max_cycle_length last' bin =
      bin_total base delta max_cycle_length last bin := by
  induction last', hle using Nat.le_induction with
  | base => rfl
  | succ last' hle ih => rw [bin_total_succ, h (last' + 1) (by omega), ite_self, Int.add_zero, ih]

-- The four ways to end: an overflow, an error of a length below 2, an error of a
-- negative total, or a histogram of the totals.
theorem apply_histogram_delta_cases (base : CycleHistogram) (delta : List Int)
    (max_cycle_length : Nat) :
    (¬(∀ length, Signed (bin_total base delta max_cycle_length length (length_of_size length))) ∧
      apply_histogram_delta base delta max_cycle_length = .error .undefined) ∨
    (∀ length, Signed (bin_total base delta max_cycle_length length (length_of_size length))) ∧
    ((ShortTotal (bin_total base delta max_cycle_length max_cycle_length) ∧
      apply_histogram_delta base delta max_cycle_length =
        .error (.invalid_argument "cycle length must be at least 2")) ∨
    (¬ShortTotal (bin_total base delta max_cycle_length max_cycle_length) ∧
      (∃ bin, bin_total base delta max_cycle_length max_cycle_length bin < 0) ∧
      apply_histogram_delta base delta max_cycle_length =
        .error (.logic_error "dynamic update produced a negative cycle count")) ∨
    (¬ShortTotal (bin_total base delta max_cycle_length max_cycle_length) ∧
      (∀ bin, 0 ≤ bin_total base delta max_cycle_length max_cycle_length bin) ∧ ∃ histogram,
      apply_histogram_delta base delta max_cycle_length = .ok histogram ∧ histogram.Canonical ∧
      ∀ bin, (histogram.count bin : Int) =
        bin_total base delta max_cycle_length max_cycle_length bin)) := by
  let count := min (max_cycle_length - 1) (delta.length - 2)
  have hzero : ∀ length, 1 + count < length → applied_delta delta max_cycle_length length = 0 := by
    intro length hl
    unfold applied_delta
    split
    · have hout : delta.length ≤ length := by omega
      rw [List.getD_eq_getElem?_getD, List.getElem?_eq_none hout, Option.getD_none]
    · rfl
  have htotal : ∀ bin, bin_total base delta max_cycle_length max_cycle_length bin =
      bin_total base delta max_cycle_length (1 + count) bin := by
    intro bin
    rcases Nat.le_total (1 + count) max_cycle_length with hle | hle
    · exact bin_total_beyond hle hzero bin
    · refine (bin_total_beyond hle (fun length hl => ?_) bin).symm
      exact if_neg (by omega)
  have hrun : apply_histogram_delta base delta max_cycle_length =
      ((List.range' 2 count).foldlM (add_total delta)
        (base.entries.map fun _ count => to_signed count)).bind
          fun totals => totals.toList.foldlM add_entry ∅ := by
    rw [apply_histogram_delta, takeWhile_range'_lt]
    rfl
  rcases @foldlM_add_total_cases base delta max_cycle_length count fun length h₁ h₂ =>
      if_pos ⟨h₁, by omega⟩ with ⟨hfit, totals, hadded, hvalue⟩ | ⟨hover, hadded⟩
  · have hsame : bin_total base delta max_cycle_length max_cycle_length =
        fun bin => totals.getD bin 0 := funext fun bin => by rw [htotal, (hvalue bin).1]
    refine Or.inr ⟨fun length => ?_, ?_⟩
    · rcases Nat.le_total length (1 + count) with hle | hle
      · exact hfit length hle
      · rw [bin_total_beyond hle hzero, ← (hvalue _).1]
        exact (hvalue _).2
    · rw [hrun, hadded, hsame]
      exact foldlM_add_entry_cases fun k => (hvalue k).2.2
  · refine Or.inl ⟨fun hall => hover fun length _ => hall length, ?_⟩
    rw [hrun, hadded]
    rfl

-- Where no delta entry has more than 32 bits of length, every bin is one length.
theorem bin_total_narrow
    (h : ∀ length, 2 ^ 32 ≤ length → applied_delta delta max_cycle_length length = 0) (bin : Nat) :
    bin_total base delta max_cycle_length max_cycle_length bin =
      to_signed (base.count bin) + applied_delta delta max_cycle_length bin := by
  have hall : ∀ last, bin_total base delta max_cycle_length last bin =
      to_signed (base.count bin) +
        if bin ≤ last then applied_delta delta max_cycle_length bin else 0 := by
    intro last
    induction last with
    | zero =>
        rw [bin_total_one base delta max_cycle_length bin (Nat.zero_le 1)]
        split
        · rw [applied_delta, if_neg (by omega)]
          omega
        · omega
    | succ last ih =>
        rw [bin_total_succ, ih]
        by_cases hlast : last + 1 < 2 ^ 32
        · rw [length_of_size_eq hlast]
          by_cases heq : last + 1 = bin
          · subst heq
            rw [if_neg (by omega), if_pos rfl, if_pos (Nat.le_refl _), Int.add_zero]
          · rw [if_neg heq, Int.add_zero]
            by_cases hle : bin ≤ last
            · rw [if_pos hle, if_pos (by omega)]
            · rw [if_neg hle, if_neg (by omega)]
        · rw [h (last + 1) (by omega), ite_self, Int.add_zero]
          by_cases hle : bin ≤ last
          · rw [if_pos hle, if_pos (by omega)]
          · rw [if_neg hle]
            by_cases hnext : bin ≤ last + 1
            · rw [if_pos hnext, h bin (by omega)]
            · rw [if_neg hnext]
  rw [hall]
  by_cases hbin : bin ≤ max_cycle_length
  · rw [if_pos hbin]
  · rw [if_neg hbin, applied_delta, if_neg (by omega)]

theorem to_signed_eq_iff (count : Nat) : to_signed count = count ↔ count < 2 ^ 63 := by
  constructor
  · intro heq
    have := (to_signed_bounds count).2
    omega
  · exact to_signed_eq

-- Where the totals are the sums, no length of more than 32 bits takes part and no count
-- turns negative.
theorem small_of_totals (hnarrow : ∀ length, base.count length ≠ 0 → length < 2 ^ 32)
    (h : ∀ bin, bin_total base delta max_cycle_length max_cycle_length bin =
      base.count bin + applied_delta delta max_cycle_length bin) :
    (∀ length, base.count length < 2 ^ 63) ∧
      ∀ length, 2 ^ 32 ≤ length → applied_delta delta max_cycle_length length = 0 := by
  have hwide : ∀ length, 2 ^ 32 ≤ length → applied_delta delta max_cycle_length length = 0 := by
    intro length hl
    have hbase : base.count length = 0 := by
      by_contra hne
      exact Nat.not_lt_of_le hl (hnarrow length hne)
    have hnone : bin_total base delta max_cycle_length max_cycle_length length = 0 := by
      rw [bin_total, hbase, List.filter_eq_nil_iff.mpr fun other _ => ?_, to_signed_eq (by decide)]
      · simp
      · have : length_of_size other < 2 ^ 32 := Nat.mod_lt other (by decide)
        simp only [decide_eq_true_eq]
        omega
    have := h length
    omega
  refine ⟨fun length => ?_, hwide⟩
  rw [← to_signed_eq_iff]
  have := h length
  rw [bin_total_narrow hwide] at this
  omega

theorem bin_total_eq_exact_sum (hsmall : ∀ length, base.count length < 2 ^ 63)
    (hwide : ∀ length, 2 ^ 32 ≤ length → applied_delta delta max_cycle_length length = 0)
    (bin : Nat) :
    bin_total base delta max_cycle_length max_cycle_length bin =
      exact_sum base delta max_cycle_length bin := by
  rw [bin_total_narrow hwide, to_signed_eq (hsmall bin), exact_sum]

-- Neither a histogram nor an applied delta has anything below length 2.
theorem exact_sum_short (hcanonical : base.Canonical) {length : Nat} (h : length < 2) :
    exact_sum base delta max_cycle_length length = 0 := by
  have hbase : base.count length = 0 := by
    by_contra hne
    have hfound := hcanonical.getElem?_eq length
    rw [if_neg hne] at hfound
    have := (hcanonical length _ hfound).1
    omega
  rw [exact_sum, hbase, applied_delta, if_neg (by omega)]
  rfl

-- The delta is applied as it should exactly where no addition to a bin overflows, no
-- count from 2^63 on and no delta entry of more than 32 bits of length stands in the way
-- of sums that fit, and the other sums are told by a negative total.
theorem apply_histogram_delta_exact_iff (hcanonical : base.Canonical)
    (hnarrow : ∀ length, base.count length ≠ 0 → length < 2 ^ 32) :
    AppliesExactly base delta max_cycle_length ↔
      (∀ length, Signed (bin_total base delta max_cycle_length length (length_of_size length))) ∧
      (SumsFit base delta max_cycle_length → (∀ length, base.count length < 2 ^ 63) ∧
        ∀ length, 2 ^ 32 ≤ length → applied_delta delta max_cycle_length length = 0) ∧
      (¬SumsFit base delta max_cycle_length →
        ShortTotal (bin_total base delta max_cycle_length max_cycle_length) ∨
        (∃ length, exact_sum base delta max_cycle_length length < 0) ∧
          ∃ bin, bin_total base delta max_cycle_length max_cycle_length bin < 0) := by
  have hcases := apply_histogram_delta_cases base delta max_cycle_length
  constructor
  · intro hexact
    have hfits : ∀ length,
        Signed (bin_total base delta max_cycle_length length (length_of_size length)) := by
      by_contra hover
      have hrun := (hcases.resolve_right fun h => hover h.1).2
      by_cases hsums : SumsFit base delta max_cycle_length
      · obtain ⟨histogram, hok, -⟩ := hexact.returns hsums
        cases hrun.symm.trans hok
      · obtain ⟨error, herror, hne, -⟩ := hexact.throws hsums
        exact hne (Except.error.inj (herror.symm.trans hrun))
    obtain ⟨-, hends⟩ := hcases.resolve_left fun h => h.1 hfits
    refine ⟨hfits, fun hsums => ?_, fun hsums => ?_⟩
    · obtain ⟨histogram, hok, -, hcount⟩ := hexact.returns hsums
      rcases hends with ⟨-, hrun⟩ | ⟨-, -, hrun⟩ | ⟨-, -, other, hrun, -, htotal⟩
      · cases hrun.symm.trans hok
      · cases hrun.symm.trans hok
      obtain rfl : other = histogram := Except.ok.inj (hrun.symm.trans hok)
      exact small_of_totals hnarrow fun bin => (htotal bin).symm.trans (hcount bin)
    · obtain ⟨error, herror, -, hlogic⟩ := hexact.throws hsums
      rcases hends with ⟨hshort, -⟩ | ⟨-, hneg, hrun⟩ | ⟨-, -, other, hrun, -⟩
      · exact Or.inl hshort
      · exact Or.inr ⟨hlogic _ (Except.error.inj (herror.symm.trans hrun)), hneg⟩
      · cases hrun.symm.trans herror
  · intro hcond
    obtain ⟨hfits, hreturns, hthrows⟩ := hcond
    obtain ⟨-, hends⟩ := hcases.resolve_left fun h => h.1 hfits
    refine ⟨fun hsums => ?_, fun hsums => ?_⟩
    · obtain ⟨hsmall, hwide⟩ := hreturns hsums
      have hsame := fun bin =>
        @bin_total_eq_exact_sum base delta max_cycle_length hsmall hwide bin
      rcases hends with ⟨hshort, -⟩ | ⟨-, ⟨bin, hneg⟩, -⟩ | ⟨-, -, histogram, hrun, hcan, htotal⟩
      · unfold ShortTotal at hshort
        rw [hsame, hsame, exact_sum_short hcanonical Nat.zero_lt_two,
          exact_sum_short hcanonical Nat.one_lt_two] at hshort
        omega
      · have := (hsums bin).1
        rw [hsame] at hneg
        omega
      · exact ⟨histogram, hrun, hcan, fun length => (htotal length).trans (hsame length)⟩
    · rcases hends with ⟨-, hrun⟩ | ⟨hshort, hneg, hrun⟩ | ⟨hshort, hpos, -⟩
      · exact ⟨_, hrun, by simp, fun text h => by cases h⟩
      · obtain ⟨hless, -⟩ := (hthrows hsums).resolve_left hshort
        exact ⟨_, hrun, by simp, fun _ _ => hless⟩
      · obtain ⟨-, bin, hneg⟩ := (hthrows hsums).resolve_left hshort
        have := hpos bin
        omega

-- 2^63 cycles of length 3.
def large_base : CycleHistogram := ⟨(∅ : Std.ExtTreeMap Nat Nat).insert 3 (2 ^ 63)⟩

theorem large_base_count (length : Nat) :
    large_base.count length = if length = 3 then 2 ^ 63 else 0 := by
  rw [CycleHistogram.count_eq, large_base, Std.ExtTreeMap.getElem?_insert]
  by_cases hl : length = 3
  · simp [hl]
  · simp [hl, Ne.symm hl]

theorem large_base_canonical : large_base.Canonical := by
  intro length count h
  rw [large_base, Std.ExtTreeMap.getElem?_insert] at h
  by_cases hl : length = 3
  · simp [hl] at h
    omega
  · simp [Ne.symm hl] at h

-- A delta of zeros does not give this histogram back, but reports a negative count.
theorem apply_histogram_delta_large :
    ¬AppliesExactly large_base [0, 0, 0, 0] 3 := by
  have hzero : ∀ length, applied_delta [0, 0, 0, 0] 3 length = 0 := by
    intro length
    unfold applied_delta
    split
    · next h =>
        rcases (show length = 2 ∨ length = 3 by omega) with rfl | rfl
        · rfl
        · rfl
    · rfl
  intro hexact
  have hsums : SumsFit large_base [0, 0, 0, 0] 3 := by
    intro length
    rw [exact_sum, large_base_count, hzero, MAX_COUNT]
    split <;> omega
  obtain ⟨histogram, hok, -⟩ := hexact.returns hsums
  rcases apply_histogram_delta_cases large_base [0, 0, 0, 0] 3 with ⟨-, hrun⟩ | ⟨-, hends⟩
  · cases hrun.symm.trans hok
  · rcases hends with ⟨-, hrun⟩ | ⟨-, -, hrun⟩ | ⟨-, hpos, -⟩
    · cases hrun.symm.trans hok
    · cases hrun.symm.trans hok
    · have := hpos 3
      rw [bin_total_narrow fun length _ => hzero length, hzero, large_base_count, if_pos rfl] at this
      exact absurd this (by decide)

theorem large_base_narrow (length : Nat) (h : large_base.count length ≠ 0) : length < 2 ^ 32 := by
  rw [large_base_count] at h
  split at h <;> omega

theorem apply_histogram_delta_exact_iff_large :
    AppliesExactly large_base [0, 0, 0, 0] 3 ↔
      (∀ length, Signed (bin_total large_base [0, 0, 0, 0] 3 length (length_of_size length))) ∧
      (SumsFit large_base [0, 0, 0, 0] 3 → (∀ length, large_base.count length < 2 ^ 63) ∧
        ∀ length, 2 ^ 32 ≤ length → applied_delta [0, 0, 0, 0] 3 length = 0) ∧
      (¬SumsFit large_base [0, 0, 0, 0] 3 → ShortTotal (bin_total large_base [0, 0, 0, 0] 3 3) ∨
        (∃ length, exact_sum large_base [0, 0, 0, 0] 3 length < 0) ∧
          ∃ bin, bin_total large_base [0, 0, 0, 0] 3 3 bin < 0) :=
  apply_histogram_delta_exact_iff large_base_canonical large_base_narrow

end Exact

end CycleEnum.Dynamic
