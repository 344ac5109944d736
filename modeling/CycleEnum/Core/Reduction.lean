import CycleEnum.Core.Merge
import Mathlib.Data.Multiset.Filter
import Mathlib.Algebra.BigOperators.Group.Multiset.Basic

namespace CycleEnum.CycleHistogram

-- A call leaves the error it threw, if any, and the histogram as it stands then.
def increment_call (histogram : CycleHistogram) (length count : Nat) :
    Option Error × CycleHistogram :=
  match ensure_valid_length length with
  | .error error => (some error, histogram)
  | .ok () =>
      if count = 0 then (none, histogram)
      else
        -- `entries_[length]` makes the entry before the sum is checked
        let entered : CycleHistogram := ⟨histogram.entries.insertIfNew length 0⟩
        let current := entered.count length
        match ensure_addition_safe current count with
        | .error error => (some error, entered)
        | .ok () => (none, ⟨entered.entries.insert length (current + count)⟩)

-- The histogram objects of a program, all empty at first.
abbrev Histograms := Nat → CycleHistogram

inductive Call where
  | increment (target length count : Nat)
  | merge (target source : Nat)
  | clear (target : Nat)

-- The loop of `merge` over the entries of the source. A count is read when the loop
-- comes to it, so that a histogram merged into itself is read as it changes.
def merge_loop (target source : Nat) : List Nat → Histograms → Option Error × Histograms
  | [], store => (none, store)
  | length :: lengths, store =>
      match (store target).increment_call length ((store source).count length) with
      | (some error, after) => (some error, Function.update store target after)
      | (none, after) => merge_loop target source lengths (Function.update store target after)

def perform (store : Histograms) : Call → Option Error × Histograms
  | .increment target length count =>
      let (thrown, after) := (store target).increment_call length count
      (thrown, Function.update store target after)
  | .merge target source => merge_loop target source (store source).entries.keys store
  | .clear target => (none, Function.update store target ∅)

-- A program that goes on after a failed call.
def perform_all (store : Histograms) (calls : List Call) : Histograms :=
  calls.foldl (fun store call => (perform store call).2) store

-- A program that stops at the first failed call.
def run (store : Histograms) : List Call → Except Error Histograms
  | [] => .ok store
  | call :: calls =>
      match perform store call with
      | (some error, _) => .error error
      | (none, after) => run after calls

-- The counts of a call are 64-bit numbers.
def Call.Fits : Call → Prop
  | .increment _ _ count => count ≤ MAX_COUNT
  | .merge _ _ => True
  | .clear _ => True

structure Counted (histogram : CycleHistogram) : Prop where
  canonical : histogram.Canonical
  le_max : ∀ length, histogram.count length ≤ MAX_COUNT

theorem counted_empty : (∅ : CycleHistogram).Counted :=
  ⟨canonical_empty, fun length => by simp⟩

theorem increment_invalid (histogram : CycleHistogram) {length count : Nat} (hl : length < 2) :
    histogram.increment length count =
      .error (.invalid_argument "cycle length must be at least 2") := by
  rw [increment, ensure_valid_length, if_pos hl]
  rfl

-- A failed increment changes nothing: where the sum does not fit, the entry was there.
theorem increment_call_eq (histogram : CycleHistogram) (length : Nat) {count : Nat}
    (hc : count ≤ MAX_COUNT) :
    histogram.increment_call length count =
      match histogram.increment length count with
      | .ok after => (none, after)
      | .error error => (some error, histogram) := by
  by_cases hl : length < 2
  · rw [increment_invalid histogram hl, increment_call, ensure_valid_length, if_pos hl]
  by_cases hz : count = 0
  · subst hz
    rw [increment_zero histogram (by omega), increment_call, ensure_valid_length, if_neg hl]
    rfl
  have hcurrent : (CycleHistogram.mk (histogram.entries.insertIfNew length 0)).count length =
      histogram.count length := by
    simp only [count_eq, Std.ExtTreeMap.getElem?_insertIfNew]
    by_cases hm : length ∈ histogram.entries <;> simp [hm]
  rw [increment_call, ensure_valid_length, if_neg hl]
  simp only [if_neg hz, hcurrent]
  by_cases hfit : histogram.count length + count ≤ MAX_COUNT
  · have hsafe : ¬count > MAX_COUNT - histogram.count length := by omega
    have hins : (histogram.entries.insertIfNew length 0).insert length
        (histogram.count length + count) =
          histogram.entries.insert length (histogram.count length + count) := by
      apply Std.ExtTreeMap.ext_getElem?
      intro k
      rw [Std.ExtTreeMap.getElem?_insert, Std.ExtTreeMap.getElem?_insert,
        Std.ExtTreeMap.getElem?_insertIfNew]
      by_cases hk : length = k <;> simp [hk]
    simp [increment, ensure_valid_length, ensure_addition_safe, hl, hz, hsafe, hins, bind,
      Except.bind, pure, Except.pure]
  · have hsafe : count > MAX_COUNT - histogram.count length := by omega
    have hm : length ∈ histogram.entries := by
      by_contra hm
      rw [count_eq, Std.ExtTreeMap.getElem?_eq_none hm] at hfit
      exact hfit (by simpa using hc)
    have hsame : histogram.entries.insertIfNew length 0 = histogram.entries := by
      apply Std.ExtTreeMap.ext_getElem?
      intro k
      rw [Std.ExtTreeMap.getElem?_insertIfNew]
      by_cases hk : length = k
      · subst hk
        simp [hm]
      · simp [hk]
    rw [increment_overflow histogram (by omega) hz (by omega), ensure_addition_safe, if_pos hsafe,
      hsame]

theorem increment_cases (histogram : CycleHistogram) {length count : Nat} (hl : 2 ≤ length)
    (hmax : ∀ k, histogram.count k ≤ MAX_COUNT) :
    (∃ after, histogram.increment length count = .ok after ∧
      (∀ k, after.count k = histogram.count k + if length = k then count else 0) ∧
      (histogram.Canonical → after.Canonical) ∧ histogram.count length + count ≤ MAX_COUNT) ∨
    (histogram.increment length count =
        .error (.overflow_error "cycle histogram count overflow") ∧
      MAX_COUNT < histogram.count length + count) := by
  by_cases hfit : histogram.count length + count ≤ MAX_COUNT
  · obtain ⟨after, hok, hcount, hcan⟩ := increment_ok histogram hl hfit
    exact Or.inl ⟨after, hok, hcount, hcan, hfit⟩
  · have hz : count ≠ 0 := by
      have := hmax length
      omega
    exact Or.inr ⟨increment_overflow histogram hl hz (by omega), by omega⟩

theorem Counted.increment_call {histogram : CycleHistogram} (h : histogram.Counted)
    (length : Nat) {count : Nat} (hc : count ≤ MAX_COUNT) :
    (histogram.increment_call length count).2.Counted := by
  rw [increment_call_eq histogram length hc]
  by_cases hl : length < 2
  · rw [increment_invalid histogram hl]
    exact h
  · have htwo : 2 ≤ length := by omega
    rcases @increment_cases histogram length count htwo h.le_max with
      ⟨after, hok, hcount, hcan, hfit⟩ | ⟨herror, -⟩
    · rw [hok]
      refine ⟨hcan h.canonical, fun k => ?_⟩
      rw [hcount]
      by_cases hk : length = k
      · rw [if_pos hk, ← hk]
        exact hfit
      · rw [if_neg hk]
        exact h.le_max k
    · rw [herror]
      exact h

section Store

variable {store : Histograms}

theorem update_counted (h : ∀ i, (store i).Counted) {target : Nat} {after : CycleHistogram}
    (ha : after.Counted) (i : Nat) : (Function.update store target after i).Counted := by
  by_cases hi : i = target
  · rw [hi, Function.update_self]
    exact ha
  · rw [Function.update_of_ne hi]
    exact h i

theorem merge_loop_counted (h : ∀ i, (store i).Counted) (target source : Nat)
    (lengths : List Nat) (i : Nat) : ((merge_loop target source lengths store).2 i).Counted := by
  induction lengths generalizing store with
  | nil => exact h i
  | cons length lengths ih =>
      have hstep : ∀ i, (Function.update store target
          ((store target).increment_call length ((store source).count length)).2 i).Counted :=
        update_counted h ((h target).increment_call length ((h source).le_max length))
      rw [merge_loop]
      split
      · next error after heq =>
          rw [heq] at hstep
          exact hstep i
      · next after heq =>
          rw [heq] at hstep
          exact ih hstep

theorem perform_counted (h : ∀ i, (store i).Counted) {call : Call} (hcall : call.Fits) (i : Nat) :
    ((perform store call).2 i).Counted := by
  cases call with
  | increment target length count =>
      exact update_counted h ((h target).increment_call length hcall) i
  | merge target source => exact merge_loop_counted h target source _ i
  | clear target => exact update_counted h counted_empty i

theorem perform_all_counted (h : ∀ i, (store i).Counted) {calls : List Call}
    (hcalls : ∀ call ∈ calls, call.Fits) (i : Nat) : (perform_all store calls i).Counted := by
  induction calls generalizing store with
  | nil => exact h i
  | cons call calls ih =>
      exact ih (perform_counted h (hcalls call List.mem_cons_self))
        fun other ho => hcalls other (List.mem_cons_of_mem call ho)

end Store

theorem Counted.beq_iff {a b : CycleHistogram} (ha : a.Counted) (hb : b.Counted) :
    (a == b) = true ↔ ∀ length, a.count length = b.count length := by
  rw [beq_iff_eq]
  constructor
  · intro heq length
    rw [heq]
  · exact ha.canonical.ext hb.canonical

theorem toList_eq_map (histogram : CycleHistogram) :
    histogram.entries.toList =
      histogram.entries.keys.map fun length => (length, histogram.count length) := by
  rw [← Std.ExtTreeMap.map_fst_toList_eq_keys, List.map_map]
  refine (List.map_id _).symm.trans (List.map_congr_left fun event he => ?_)
  have hmem := Std.ExtTreeMap.mem_toList_iff_getElem?_eq_some.mp
    (show (event.1, event.2) ∈ histogram.entries.toList from he)
  simp [count_eq, hmem]

-- Where the two histograms are different objects, the loop records the source's counts.
theorem merge_loop_eq {store : Histograms} {target source : Nat} (hne : source ≠ target)
    (hmax : ∀ k, (store source).count k ≤ MAX_COUNT) (lengths : List Nat) :
    (∀ after, (store target).record
        (lengths.map fun length => (length, (store source).count length)) = .ok after →
      merge_loop target source lengths store = (none, Function.update store target after)) ∧
    ∀ error, (store target).record
        (lengths.map fun length => (length, (store source).count length)) = .error error →
      (merge_loop target source lengths store).1 = some error := by
  induction lengths generalizing store with
  | nil =>
      refine ⟨fun after hr => ?_, fun error hr => by cases hr⟩
      obtain rfl : store target = after := Except.ok.inj hr
      rw [Function.update_eq_self]
      rfl
  | cons length lengths ih =>
      rw [List.map_cons, record_cons, merge_loop, increment_call_eq _ length (hmax length)]
      cases hi : (store target).increment length ((store source).count length) with
      | error error =>
          refine ⟨fun after hr => (by cases hr), fun error' hr => ?_⟩
          obtain rfl : error = error' := Except.error.inj hr
          rfl
      | ok middle =>
          have hsource : Function.update store target middle source = store source :=
            Function.update_of_ne hne _ _
          have hrest := @ih (Function.update store target middle) (by rw [hsource]; exact hmax)
          rw [hsource, Function.update_self] at hrest
          refine ⟨fun after hr => ?_, hrest.2⟩
          change merge_loop target source lengths (Function.update store target middle) = _
          rw [hrest.1 after hr, Function.update_idem]

-- What a number of increments adds up to at one length, in any order.
def total (events : Multiset (Nat × Nat)) (length : Nat) : Nat :=
  ((events.filter (·.1 = length)).map (·.2)).sum

@[simp] theorem total_zero (length : Nat) : total 0 length = 0 := rfl

@[simp] theorem total_add (events more : Multiset (Nat × Nat)) (length : Nat) :
    total (events + more) length = total events length + total more length := by
  simp [total]

theorem total_cons (event : Nat × Nat) (events : Multiset (Nat × Nat)) (length : Nat) :
    total (event ::ₘ events) length =
      total events length + if event.1 = length then event.2 else 0 := by
  by_cases h : event.1 = length <;> simp [total, h, Nat.add_comm]

theorem total_mono {events more : Multiset (Nat × Nat)} (h : events ≤ more) (length : Nat) :
    total events length ≤ total more length := by
  obtain ⟨rest, rfl⟩ := Multiset.le_iff_exists_add.mp h
  rw [total_add]
  exact Nat.le_add_right _ _

-- Calls that bring some increments together in the histogram `root`: each histogram is
-- given increments of its own, in any order, and is merged into another one at most
-- once, after which it is not used. `held` says what each one holds, `none` if it was
-- merged.
inductive Reduces (root : Nat) :
    (Nat → Option (Multiset (Nat × Nat))) → List Call → Multiset (Nat × Nat) → Prop where
  | done {held events} (hroot : held root = some events)
      (hrest : ∀ i, i ≠ root → held i = none ∨ held i = some 0) : Reduces root held [] events
  | increment {held target length count events calls all} (htarget : held target = some events)
      (hrest : Reduces root (Function.update held target (some ((length, count) ::ₘ events)))
        calls all) : Reduces root held (.increment target length count :: calls) all
  | merge {held target source events more calls all} (hne : source ≠ target)
      (htarget : held target = some events) (hsource : held source = some more)
      (hrest : Reduces root (Function.update (Function.update held target (some (events + more)))
        source none) calls all) : Reduces root held (.merge target source :: calls) all

theorem total_events (events : List (Nat × Nat)) (length : Nat) :
    total events length = tally events length := by
  simp [total, tally]

-- What a histogram holds goes into the result.
theorem Reduces.le {root : Nat} {held : Nat → Option (Multiset (Nat × Nat))} {calls : List Call}
    {all : Multiset (Nat × Nat)} (h : Reduces root held calls all) {i : Nat}
    {events : Multiset (Nat × Nat)} (hi : held i = some events) : events ≤ all := by
  induction h generalizing i events with
  | @done held final hroot hrest =>
      by_cases heq : i = root
      · obtain rfl : final = events := Option.some.inj (hroot.symm.trans (heq ▸ hi))
        exact le_refl _
      · rcases hrest i heq with hnone | hzero
        · rw [hnone] at hi
          cases hi
        · obtain rfl : 0 = events := Option.some.inj (hzero.symm.trans hi)
          exact Multiset.zero_le _
  | @increment held target length count before calls all htarget hrest ih =>
      by_cases heq : i = target
      · obtain rfl : before = events := Option.some.inj (htarget.symm.trans (heq ▸ hi))
        exact (Multiset.le_cons_self _ _).trans (ih (i := target) (Function.update_self _ _ _))
      · exact ih (by rw [Function.update_of_ne heq]; exact hi)
  | @merge held target source before more calls all hne htarget hsource hrest ih =>
      have hboth : before + more ≤ all := ih (i := target) (by
        rw [Function.update_of_ne hne.symm, Function.update_self])
      by_cases heq : i = target
      · obtain rfl : before = events := Option.some.inj (htarget.symm.trans (heq ▸ hi))
        exact (Multiset.le_add_right _ _).trans hboth
      · by_cases heq' : i = source
        · obtain rfl : more = events := Option.some.inj (hsource.symm.trans (heq' ▸ hi))
          exact (Multiset.le_add_left _ _).trans hboth
        · exact ih (by rw [Function.update_of_ne heq', Function.update_of_ne heq]; exact hi)

-- Every histogram has the counts of what it holds.
def Holds (store : Histograms) (held : Nat → Option (Multiset (Nat × Nat))) : Prop :=
  ∀ i events, held i = some events →
    (store i).Counted ∧ ∀ k, (store i).count k = total events k

theorem Holds.update {store : Histograms} {held : Nat → Option (Multiset (Nat × Nat))}
    (h : Holds store held) {target : Nat} {after : CycleHistogram} {events : Multiset (Nat × Nat)}
    (hc : after.Counted) (hcount : ∀ k, after.count k = total events k) :
    Holds (Function.update store target after) (Function.update held target (some events)) := by
  intro i other hi
  by_cases heq : i = target
  · subst heq
    rw [Function.update_self] at hi ⊢
    obtain rfl : events = other := Option.some.inj hi
    exact ⟨hc, hcount⟩
  · rw [Function.update_of_ne heq] at hi ⊢
    exact h i other hi

theorem Holds.retire {store : Histograms} {held : Nat → Option (Multiset (Nat × Nat))}
    (h : Holds store held) (source : Nat) : Holds store (Function.update held source none) := by
  intro i events hi
  by_cases heq : i = source
  · rw [heq, Function.update_self] at hi
    cases hi
  · rw [Function.update_of_ne heq] at hi
    exact h i events hi

theorem perform_increment {store : Histograms} {held : Nat → Option (Multiset (Nat × Nat))}
    (h : Holds store held) {target length count : Nat} {events : Multiset (Nat × Nat)}
    (htarget : held target = some events) (hl : 2 ≤ length) (hc : count ≤ MAX_COUNT) :
    (∃ after, perform store (.increment target length count) = (none, after) ∧
      Holds after (Function.update held target (some ((length, count) ::ₘ events)))) ∨
    ((perform store (.increment target length count)).1 =
        some (.overflow_error "cycle histogram count overflow") ∧
      MAX_COUNT < total ((length, count) ::ₘ events) length) := by
  obtain ⟨hcounted, hcount⟩ := h target events htarget
  simp only [perform, increment_call_eq (store target) length hc]
  rcases @increment_cases (store target) length count hl hcounted.le_max with
    ⟨after, hok, hafter, hcan, hfit⟩ | ⟨herror, hover⟩
  · refine Or.inl ⟨_, by rw [hok], h.update ⟨hcan hcounted.canonical, fun k => ?_⟩ fun k => ?_⟩
    · rw [hafter]
      have := hcounted.le_max k
      split
      · next heq => rwa [← heq]
      · omega
    · rw [hafter, hcount, total_cons]
  · refine Or.inr ⟨by rw [herror], ?_⟩
    rw [hcount] at hover
    rwa [total_cons, if_pos rfl]

theorem perform_merge {store : Histograms} {held : Nat → Option (Multiset (Nat × Nat))}
    (h : Holds store held) {target source : Nat} {events more : Multiset (Nat × Nat)}
    (hne : source ≠ target) (htarget : held target = some events)
    (hsource : held source = some more) :
    (∃ after, perform store (.merge target source) = (none, after) ∧
      Holds after (Function.update (Function.update held target (some (events + more)))
        source none)) ∨
    ((perform store (.merge target source)).1 =
        some (.overflow_error "cycle histogram count overflow") ∧
      ∃ k, MAX_COUNT < total (events + more) k) := by
  obtain ⟨hcounted, hcount⟩ := h target events htarget
  obtain ⟨hcounted', hcount'⟩ := h source more hsource
  have hloop := merge_loop_eq hne hcounted'.le_max (store source).entries.keys
  rw [← toList_eq_map] at hloop
  by_cases hfit : (store target).Fits (store source).entries.toList
  · obtain ⟨after, hok, hafter, hcan⟩ := record_ok _ _ hcounted'.canonical.two_le hfit
    refine Or.inl ⟨_, hloop.1 after hok, (h.update ⟨hcan hcounted.canonical, fun k => ?_⟩
      fun k => ?_).retire source⟩
    · rw [hafter]
      exact hfit k
    · rw [hafter, tally_toList, hcount, hcount', total_add]
  · refine Or.inr ⟨hloop.2 _ (record_overflow _ _ hcounted'.canonical.two_le hcounted.le_max hfit),
      ?_⟩
    obtain ⟨k, hk⟩ := not_forall.mp hfit
    rw [tally_toList, hcount, hcount', ← total_add] at hk
    exact ⟨k, by omega⟩

theorem run_reduces {root : Nat} {store : Histograms}
    {held : Nat → Option (Multiset (Nat × Nat))} {calls : List Call} {all : Multiset (Nat × Nat)}
    (h : Reduces root held calls all) (hall : ∀ event ∈ all, 2 ≤ event.1 ∧ event.2 ≤ MAX_COUNT)
    (hstore : Holds store held) :
    (∃ after, run store calls = .ok after ∧ (after root).Counted ∧
      ∀ k, (after root).count k = total all k) ∨
    (run store calls = .error (.overflow_error "cycle histogram count overflow") ∧
      ∃ k, MAX_COUNT < total all k) := by
  induction h generalizing store with
  | done hroot hrest => exact Or.inl ⟨store, rfl, hstore root _ hroot⟩
  | @increment held target length count events calls all htarget hrest ih =>
      have hle := hrest.le (i := target) (Function.update_self _ _ _)
      obtain ⟨hl, hc⟩ := hall (length, count) (Multiset.subset_of_le hle (Multiset.mem_cons_self _ _))
      rcases perform_increment hstore htarget hl hc with ⟨after, hperform, hafter⟩ | ⟨herror, hover⟩
      · rw [run, hperform]
        exact ih hall hafter
      · refine Or.inr ⟨?_, length, hover.trans_le (total_mono hle length)⟩
        rw [run]
        split
        · next error after heq =>
            rw [heq] at herror
            rw [Option.some.inj herror]
        · next after heq =>
            rw [heq] at herror
            cases herror
  | @merge held target source events more calls all hne htarget hsource hrest ih =>
      have hle := hrest.le (i := target) (by
        rw [Function.update_of_ne hne.symm, Function.update_self])
      rcases perform_merge hstore hne htarget hsource with ⟨after, hperform, hafter⟩ |
        ⟨herror, k, hover⟩
      · rw [run, hperform]
        exact ih hall hafter
      · refine Or.inr ⟨?_, k, hover.trans_le (total_mono hle k)⟩
        rw [run]
        split
        · next error after heq =>
            rw [heq] at herror
            rw [Option.some.inj herror]
        · next after heq =>
            rw [heq] at herror
            cases herror

-- The increments of one local histogram.
def local_calls (target : Nat) (events : List (Nat × Nat)) : List Call :=
  events.map fun event => .increment target event.1 event.2

-- Each thread fills its own histogram, and the threads' histograms are merged into the
-- first one after the parallel loop.
def thread_calls (parts : List (List (Nat × Nat))) : List Call :=
  ((parts.zipIdx 1).flatMap fun part => local_calls part.2 part.1) ++
    (List.range' 1 parts.length).map (.merge 0)

theorem reduces_local {root target : Nat} {held : Nat → Option (Multiset (Nat × Nat))}
    {before all : Multiset (Nat × Nat)} {calls : List Call} (events : List (Nat × Nat))
    (htarget : held target = some before)
    (h : Reduces root (Function.update held target (some (events + before))) calls all) :
    Reduces root held (local_calls target events ++ calls) all := by
  induction events generalizing held before with
  | nil =>
      rw [Multiset.coe_nil, Multiset.zero_add, ← htarget, Function.update_eq_self] at h
      exact h
  | cons event events ih =>
      apply Reduces.increment htarget
      apply ih (Function.update_self _ _ _)
      rw [Function.update_idem, Multiset.add_cons, ← Multiset.cons_add, Multiset.cons_coe]
      exact h

theorem reduces_locals {root i : Nat} {held : Nat → Option (Multiset (Nat × Nat))}
    (parts : List (List (Nat × Nat))) (hheld : ∀ j, i ≤ j → held j = some 0) :
    ∃ held' : Nat → Option (Multiset (Nat × Nat)),
      (∀ (k : Nat) part, parts[k]? = some part → held' (i + k) = some (part : Multiset (Nat × Nat))) ∧
      (∀ j, j < i ∨ i + parts.length ≤ j → held' j = held j) ∧
      ∀ calls all, Reduces root held' calls all →
        Reduces root held (((parts.zipIdx i).flatMap fun part => local_calls part.2 part.1) ++ calls)
          all := by
  induction parts generalizing i held with
  | nil => exact ⟨held, by simp, fun _ _ => rfl, fun calls all h => h⟩
  | cons part parts ih =>
      have hone : ∀ j, i + 1 ≤ j → Function.update held i (some (part : Multiset _)) j = some 0 :=
        fun j hj => by
          rw [Function.update_of_ne (by omega)]
          exact hheld j (by omega)
      obtain ⟨held', hparts, hout, hcalls⟩ := ih hone
      refine ⟨held', fun k other hk => ?_, fun j hj => ?_, fun calls all h => ?_⟩
      · cases k with
        | zero =>
            obtain rfl : part = other := Option.some.inj hk
            rw [Nat.add_zero, hout i (Or.inl (by omega)), Function.update_self]
        | succ k =>
            rw [← hparts k other hk]
            congr 1
            omega
      · rw [hout j (by simp only [List.length_cons] at hj; omega), Function.update_of_ne]
        simp only [List.length_cons] at hj
        omega
      · rw [List.zipIdx_cons, List.flatMap_cons, List.append_assoc]
        apply reduces_local part (hheld i (Nat.le_refl i))
        rw [Multiset.add_zero]
        exact hcalls calls all h

theorem reduces_merges {i : Nat} {held : Nat → Option (Multiset (Nat × Nat))}
    {before : Multiset (Nat × Nat)} (parts : List (List (Nat × Nat))) (hi : 0 < i)
    (hroot : held 0 = some before)
    (hparts : ∀ (k : Nat) part, parts[k]? = some part →
      held (i + k) = some (part : Multiset (Nat × Nat)))
    (hrest : ∀ j, j ≠ 0 → j < i ∨ i + parts.length ≤ j → held j = none ∨ held j = some 0) :
    Reduces 0 held ((List.range' i parts.length).map (.merge 0)) (before + parts.flatten) := by
  induction parts generalizing i held before with
  | nil =>
      rw [List.flatten_nil, Multiset.coe_nil, Multiset.add_zero]
      exact .done hroot fun j hj => hrest j hj (by simp only [List.length_nil]; omega)
  | cons part parts ih =>
      rw [List.length_cons, List.range'_succ, List.map_cons, List.flatten_cons,
        ← Multiset.coe_add, ← Multiset.add_assoc]
      apply Reduces.merge (by omega) hroot (hparts 0 part rfl)
      apply ih (by omega)
      · rw [Function.update_of_ne (by omega), Function.update_self]
      · intro k other hk
        rw [Function.update_of_ne (by omega), Function.update_of_ne (by omega),
          ← hparts (k + 1) other hk]
        congr 1
        omega
      · intro j hj hout
        by_cases heq : j = i
        · exact Or.inl (by rw [heq, Nat.add_zero, Function.update_self])
        · rw [Nat.add_zero, Function.update_of_ne heq, Function.update_of_ne hj]
          exact hrest j hj (by simp only [List.length_cons]; omega)

theorem reduces_threads (parts : List (List (Nat × Nat))) :
    Reduces 0 (fun _ => some 0) (thread_calls parts) parts.flatten := by
  obtain ⟨held, hparts, hout, hcalls⟩ := @reduces_locals 0 1 (fun _ => some 0) parts fun _ _ => rfl
  apply hcalls
  rw [← Multiset.zero_add (parts.flatten : Multiset (Nat × Nat))]
  exact reduces_merges parts Nat.one_pos (hout 0 (Or.inl Nat.one_pos)) hparts
    fun j hj h => Or.inr (hout j h)

-- Whatever was called, failed calls included, only lengths of cycles have entries and no
-- entry is zero, so that equal counts are equal histograms. Increments brought together
-- over any histograms and in any order end in one and the same histogram, unless the
-- total of some length does not fit, and then every order overflows.
theorem histograms_canonical_and_order_independent :
    (∀ calls calls', (∀ call ∈ calls, call.Fits) → (∀ call ∈ calls', call.Fits) → ∀ i j,
      (∀ length count, (perform_all (fun _ => ∅) calls i).entries[length]? = some count →
        2 ≤ length ∧ 0 < count) ∧
      ((perform_all (fun _ => ∅) calls i == perform_all (fun _ => ∅) calls' j) = true ↔
        ∀ length, (perform_all (fun _ => ∅) calls i).count length =
          (perform_all (fun _ => ∅) calls' j).count length)) ∧
    ∀ events : Multiset (Nat × Nat), (∀ event ∈ events, 2 ≤ event.1 ∧ event.2 ≤ MAX_COUNT) →
      ((∀ k, total events k ≤ MAX_COUNT) ∧ ∃ histogram : CycleHistogram,
        (∀ k, histogram.count k = total events k) ∧
        ∀ root calls, Reduces root (fun _ => some 0) calls events →
          ∃ after, run (fun _ => ∅) calls = .ok after ∧ after root = histogram) ∨
      ((∃ k, MAX_COUNT < total events k) ∧
        ∀ root calls, Reduces root (fun _ => some 0) calls events →
          run (fun _ => ∅) calls = .error (.overflow_error "cycle histogram count overflow")) := by
  have hempty : ∀ i : Nat, ((fun _ => ∅ : Histograms) i).Counted := fun i => counted_empty
  refine ⟨fun calls calls' hcalls hcalls' i j => ?_, fun events hevents => ?_⟩
  · have hi := perform_all_counted hempty hcalls i
    exact ⟨hi.canonical, hi.beq_iff (perform_all_counted hempty hcalls' j)⟩
  · have hholds : Holds (fun _ => ∅) fun _ => some 0 := fun i events hevents => by
      obtain rfl : 0 = events := Option.some.inj hevents
      exact ⟨counted_empty, count_empty⟩
    have hrun : ∀ root calls, Reduces root (fun _ => some 0) calls events → _ :=
      fun root calls hreduces => run_reduces hreduces hevents hholds
    by_cases hfit : ∀ k, total events k ≤ MAX_COUNT
    · have htally : ∀ k, tally events.toList k = total events k := fun k => by
        rw [← total_events, Multiset.coe_toList]
      obtain ⟨histogram, -, hcount, hcan⟩ := record_ok ∅ events.toList
        (fun event he => (hevents event (Multiset.mem_toList.mp he)).1)
        fun k => by rw [count_empty, htally, Nat.zero_add]; exact hfit k
      have hcount' : ∀ k, histogram.count k = total events k := fun k => by
        rw [hcount, count_empty, htally, Nat.zero_add]
      refine Or.inl ⟨hfit, histogram, hcount', fun root calls hreduces => ?_⟩
      rcases hrun root calls hreduces with ⟨after, hok, hcounted, hroot⟩ |
        ⟨-, k, hover⟩
      · refine ⟨after, hok, hcounted.canonical.ext (hcan canonical_empty) fun k => ?_⟩
        rw [hroot, hcount']
      · have := hfit k
        omega
    · obtain ⟨k, hk⟩ := not_forall.mp hfit
      refine Or.inr ⟨⟨k, by omega⟩, fun root calls hreduces => ?_⟩
      rcases hrun root calls hreduces with ⟨after, hok, hcounted, hroot⟩ |
        ⟨herror, -⟩
      · have := hcounted.le_max k
        rw [hroot] at this
        omega
      · exact herror

end CycleEnum.CycleHistogram
