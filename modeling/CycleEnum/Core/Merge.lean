import CycleEnum.Core.Histogram

namespace CycleEnum.CycleHistogram

def merge (histogram other : CycleHistogram) : Except Error CycleHistogram :=
  other.entries.toList.foldlM (fun histogram (length, count_value) =>
    histogram.increment length count_value) histogram

-- The loop that merges the histograms of all threads.
def merge_all (locals : List CycleHistogram) : Except Error CycleHistogram :=
  locals.foldlM merge ∅

theorem merge_eq_record (histogram other : CycleHistogram) :
    histogram.merge other = histogram.record other.entries.toList := rfl

theorem tally_toList (histogram : CycleHistogram) (length : Nat) :
    tally histogram.entries.toList length = histogram.count length := by
  rw [count_eq]
  cases h : histogram.entries[length]? with
  | none =>
      refine tally_of_not_mem fun event he heq => ?_
      have hmem := Std.ExtTreeMap.mem_toList_iff_getElem?_eq_some.mp (show (event.1, event.2) ∈ _ from he)
      rw [heq, h] at hmem
      cases hmem
  | some count =>
      have hmem := Std.ExtTreeMap.mem_toList_iff_getElem?_eq_some.mpr h
      have hd : histogram.entries.toList.Pairwise fun a b => a.1 ≠ b.1 :=
        Std.ExtTreeMap.distinct_keys_toList.imp fun {a b} hne heq => hne (by simp [heq])
      exact tally_of_mem hd hmem

theorem Canonical.two_le {histogram : CycleHistogram} (h : histogram.Canonical) :
    ∀ event ∈ histogram.entries.toList, 2 ≤ event.1 := fun event he =>
  (h event.1 event.2 (Std.ExtTreeMap.mem_toList_iff_getElem?_eq_some.mp he)).1

theorem foldlM_merge (histogram : CycleHistogram) (locals : List CycleHistogram) :
    locals.foldlM merge histogram =
      histogram.record (locals.flatMap fun one => one.entries.toList) := by
  induction locals generalizing histogram with
  | nil => rfl
  | cons one locals ih =>
      rw [List.foldlM_cons, merge_eq_record, List.flatMap_cons, record_append]
      exact bind_congr fun histogram' => ih histogram'

-- Merging what the parts of a run recorded is recording the run.
theorem merge_all_eq {locals : List CycleHistogram} {parts : List (List (Nat × Nat))}
    (h : List.Forall₂ (fun one events => (∅ : CycleHistogram).record events = .ok one) locals parts)
    (hl : ∀ events ∈ parts, ∀ event ∈ events, 2 ≤ event.1) :
    merge_all locals = (∅ : CycleHistogram).record parts.flatten := by
  have hcan : ∀ one ∈ locals, one.Canonical := by
    induction h with
    | nil => simp
    | cons hone hrest ih =>
        intro one hm
        rcases List.mem_cons.mp hm with rfl | hm
        · exact (record_count (hl _ (by simp)) hone).1
        · exact ih (fun events he => hl events (List.mem_cons_of_mem _ he)) one hm
  rw [merge_all, foldlM_merge]
  refine record_congr (fun event he => ?_) (fun event he => ?_) fun length => ?_
  · obtain ⟨one, hm, he⟩ := List.mem_flatMap.mp he
    exact (hcan one hm).two_le event he
  · obtain ⟨events, hm, he⟩ := List.mem_flatten.mp he
    exact hl events hm event he
  · induction h with
    | nil => rfl
    | cons hone hrest ih =>
        rw [List.flatMap_cons, List.flatten_cons, tally_append, tally_append, tally_toList,
          ih (fun events he => hl events (List.mem_cons_of_mem _ he))
            fun one hm => hcan one (List.mem_cons_of_mem _ hm),
          (record_count (hl _ (by simp)) hone).2]

-- A run with an overflowing part overflows.
theorem record_error {events more : List (Nat × Nat)} (h : events.Subperm more)
    (hl : ∀ event ∈ more, 2 ≤ event.1) {error : Error}
    (herror : (∅ : CycleHistogram).record events = .error error) :
    (∅ : CycleHistogram).record more = .error error := by
  rcases record_cases ∅ more hl with ⟨histogram, hok⟩ | hover
  · obtain ⟨part, hpart⟩ := record_part h hok
    cases herror.symm.trans hpart
  · rcases record_cases ∅ events (fun event he => hl event (h.subset he)) with ⟨part, hpart⟩ | hpart
    · cases herror.symm.trans hpart
    · rw [hover, ← hpart, herror]

theorem merge_recorded {before events : List (Nat × Nat)} (hl : ∀ event ∈ before, 2 ≤ event.1)
    (hl' : ∀ event ∈ events, 2 ≤ event.1) {total one : CycleHistogram}
    (htotal : (∅ : CycleHistogram).record before = .ok total)
    (hone : (∅ : CycleHistogram).record events = .ok one) :
    total.merge one = (∅ : CycleHistogram).record (before ++ events) := by
  obtain ⟨hcan, hcount⟩ := record_count hl' hone
  have hmerge : total.merge one = (∅ : CycleHistogram).record (before ++ one.entries.toList) := by
    rw [record_append, htotal]
    rfl
  rw [hmerge]
  refine record_congr ?_ ?_ fun length => ?_
  · exact fun event he => (List.mem_append.mp he).elim (hl event) (hcan.two_le event)
  · exact fun event he => (List.mem_append.mp he).elim (hl event) (hl' event)
  · rw [tally_append, tally_append, tally_toList, hcount]

-- Counting parts of a run one after the other and merging each is recording the run.
theorem foldlM_merge_recorded {α : Type} (parts : List α) {counted : α → Except Error CycleHistogram}
    {events : α → List (Nat × Nat)}
    (h : ∀ part ∈ parts, counted part = (∅ : CycleHistogram).record (events part))
    (hl : ∀ part ∈ parts, ∀ event ∈ events part, 2 ≤ event.1) {before : List (Nat × Nat)}
    (hbefore : ∀ event ∈ before, 2 ≤ event.1) {total : CycleHistogram}
    (htotal : (∅ : CycleHistogram).record before = .ok total) :
    parts.foldlM (fun total part => do total.merge (← counted part)) total =
      (∅ : CycleHistogram).record (before ++ parts.flatMap events) := by
  induction parts generalizing before total with
  | nil =>
      rw [List.flatMap_nil, List.append_nil, htotal]
      rfl
  | cons part parts ih =>
      have hpart : ∀ event ∈ events part, 2 ≤ event.1 := hl part List.mem_cons_self
      have hmore : ∀ event ∈ before ++ events part, 2 ≤ event.1 := fun event he =>
        (List.mem_append.mp he).elim (hbefore event) (hpart event)
      have hrest : ∀ event ∈ parts.flatMap events, 2 ≤ event.1 := fun event he => by
        obtain ⟨other, ho, he⟩ := List.mem_flatMap.mp he
        exact hl other (List.mem_cons_of_mem _ ho) event he
      rw [List.foldlM_cons, h part List.mem_cons_self, List.flatMap_cons, ← List.append_assoc]
      cases hone : (∅ : CycleHistogram).record (events part) with
      | error error =>
          refine (record_error ?_ (fun event he => (List.mem_append.mp he).elim (hmore event)
            (hrest event)) hone).symm
          exact ((List.sublist_append_right _ _).trans (List.sublist_append_left _ _)).subperm
      | ok one =>
          change (total.merge one).bind _ = _
          rw [merge_recorded hbefore hpart htotal hone]
          cases hmiddle : (∅ : CycleHistogram).record (before ++ events part) with
          | error error =>
              refine (record_error (List.sublist_append_left _ _).subperm (fun event he =>
                (List.mem_append.mp he).elim (hmore event) (hrest event)) hmiddle).symm
          | ok middle =>
              exact ih (fun other ho => h other (List.mem_cons_of_mem _ ho))
                (fun other ho => hl other (List.mem_cons_of_mem _ ho)) hmore hmiddle

end CycleEnum.CycleHistogram
