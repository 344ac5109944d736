import CycleEnum.Core.Types
import Mathlib.Algebra.BigOperators.Group.List.Basic
import Mathlib.Algebra.Order.BigOperators.Group.List
import Mathlib.Algebra.Order.Group.Nat
import Mathlib.Data.List.Perm.Subperm

namespace CycleEnum

def MAX_COUNT : Nat := 2 ^ 64 - 1

-- `static_cast<CycleHistogram::Length>(path.size())`, to 32 bits.
def length_of_size (size : Nat) : Nat := size % 2 ^ 32

theorem length_of_size_eq {size : Nat} (h : size < 2 ^ 32) : length_of_size size = size :=
  Nat.mod_eq_of_lt h

@[ext] structure CycleHistogram where
  entries : Std.ExtTreeMap Nat Nat

namespace CycleHistogram

instance : EmptyCollection CycleHistogram := ⟨⟨∅⟩⟩

instance : DecidableEq CycleHistogram := fun a b =>
  decidable_of_iff (a.entries = b.entries) CycleHistogram.ext_iff.symm

def ensure_valid_length (length : Nat) : Except Error Unit :=
  if length < 2 then .error (.invalid_argument "cycle length must be at least 2") else .ok ()

def ensure_addition_safe (lhs rhs : Nat) : Except Error Unit :=
  if rhs > MAX_COUNT - lhs then .error (.overflow_error "cycle histogram count overflow")
  else .ok ()

def count (histogram : CycleHistogram) (length : Nat) : Nat :=
  histogram.entries.getD length 0

def increment (histogram : CycleHistogram) (length : Nat) (count : Nat) :
    Except Error CycleHistogram := do
  ensure_valid_length length
  if count = 0 then
    return histogram
  let current := histogram.count length
  ensure_addition_safe current count
  return ⟨histogram.entries.insert length (current + count)⟩

-- The entries up to a length.
def restrict (histogram : CycleHistogram) (limit : Nat) : CycleHistogram :=
  ⟨histogram.entries.filter fun length _ => length ≤ limit⟩

-- Only lengths of cycles occur, and only with a positive count.
def Canonical (histogram : CycleHistogram) : Prop :=
  ∀ length count, histogram.entries[length]? = some count → 2 ≤ length ∧ 0 < count

-- The increments of a run in their order.
def record (histogram : CycleHistogram) (events : List (Nat × Nat)) :
    Except Error CycleHistogram :=
  events.foldlM (fun histogram event => histogram.increment event.1 event.2) histogram

-- What a run adds up to at one length.
def tally (events : List (Nat × Nat)) (length : Nat) : Nat :=
  ((events.filter (·.1 = length)).map (·.2)).sum

def Fits (histogram : CycleHistogram) (events : List (Nat × Nat)) : Prop :=
  ∀ length, histogram.count length + tally events length ≤ MAX_COUNT

@[simp] theorem tally_nil (length : Nat) : tally [] length = 0 := rfl

@[simp] theorem tally_cons (event : Nat × Nat) (events : List (Nat × Nat))
    (length : Nat) :
    tally (event :: events) length =
      (if event.1 = length then event.2 else 0) + tally events length := by
  by_cases h : event.1 = length <;> simp [tally, h]

@[simp] theorem tally_append (events more : List (Nat × Nat)) (length : Nat) :
    tally (events ++ more) length = tally events length + tally more length := by
  simp [tally]

theorem tally_flatMap {α : Type} (xs : List α) (events : α → List (Nat × Nat))
    (length : Nat) :
    tally (xs.flatMap events) length = (xs.map fun x => tally (events x) length).sum := by
  induction xs with
  | nil => rfl
  | cons x xs ih => rw [List.flatMap_cons, tally_append, ih, List.map_cons, List.sum_cons]

theorem tally_perm {events more : List (Nat × Nat)} (h : events.Perm more) (length : Nat) :
    tally events length = tally more length :=
  ((h.filter _).map _).sum_eq

theorem tally_le {events more : List (Nat × Nat)} (h : events.Subperm more) (length : Nat) :
    tally events length ≤ tally more length := by
  obtain ⟨part, hperm, hsub⟩ := h
  rw [← tally_perm hperm]
  exact ((hsub.filter _).map _).sum_le_sum fun _ _ => Nat.zero_le _

theorem tally_of_not_mem {events : List (Nat × Nat)} {length : Nat}
    (h : ∀ event ∈ events, event.1 ≠ length) : tally events length = 0 := by
  rw [tally, List.filter_eq_nil_iff.mpr (by simpa using h)]
  rfl

-- Increments by one are counted.
theorem tally_map_one (lengths : List Nat) (length : Nat) :
    tally (lengths.map fun length => (length, 1)) length = lengths.count length := by
  induction lengths with
  | nil => rfl
  | cons first lengths ih =>
      rw [List.map_cons, tally_cons, ih, List.count_cons, Nat.add_comm]
      simp only [beq_iff_eq]

-- Where every length occurs once, its event is the whole tally.
theorem tally_of_mem {events : List (Nat × Nat)} (hd : events.Pairwise fun a b => a.1 ≠ b.1)
    {event : Nat × Nat} (h : event ∈ events) : tally events event.1 = event.2 := by
  induction events with
  | nil => simp at h
  | cons first events ih =>
      obtain ⟨hfirst, hd⟩ := List.pairwise_cons.mp hd
      rw [tally_cons]
      rcases List.mem_cons.mp h with rfl | h
      · rw [if_pos rfl, tally_of_not_mem fun other ho => (hfirst other ho).symm, Nat.add_zero]
      · rw [if_neg (hfirst event h), Nat.zero_add, ih hd h]

@[simp] theorem count_empty (length : Nat) : (∅ : CycleHistogram).count length = 0 := by
  change (∅ : Std.ExtTreeMap Nat Nat).getD length 0 = 0
  simp

theorem canonical_empty : (∅ : CycleHistogram).Canonical := by
  intro length count h
  change (∅ : Std.ExtTreeMap Nat Nat)[length]? = some count at h
  simp at h

theorem count_eq (histogram : CycleHistogram) (length : Nat) :
    histogram.count length = histogram.entries[length]?.getD 0 := by
  rw [count, Std.ExtTreeMap.getD_eq_getD_getElem?]

theorem Canonical.getElem?_eq {histogram : CycleHistogram} (h : histogram.Canonical)
    (length : Nat) :
    histogram.entries[length]? =
      if histogram.count length = 0 then none else some (histogram.count length) := by
  rw [count_eq]
  cases he : histogram.entries[length]? with
  | none => simp
  | some count =>
      have := (h length count he).2
      simp [show count ≠ 0 by omega]

-- Two histograms without zero entries are equal when their counts agree.
theorem Canonical.ext {a b : CycleHistogram} (ha : a.Canonical) (hb : b.Canonical)
    (h : ∀ length, a.count length = b.count length) : a = b := by
  apply CycleHistogram.ext
  apply Std.ExtTreeMap.ext_getElem?
  intro length
  rw [ha.getElem?_eq, hb.getElem?_eq, h]

theorem increment_zero (histogram : CycleHistogram) {length : Nat} (hl : 2 ≤ length) :
    histogram.increment length 0 = .ok histogram := by
  simp [increment, ensure_valid_length, show ¬length < 2 by omega, bind, Except.bind, pure,
    Except.pure]

-- An increment that fits adds to one length only.
theorem increment_ok (histogram : CycleHistogram) {length : Nat} {count : Nat}
    (hl : 2 ≤ length) (hfit : histogram.count length + count ≤ MAX_COUNT) :
    ∃ histogram', histogram.increment length count = .ok histogram' ∧
      (∀ k, histogram'.count k = histogram.count k + if length = k then count else 0) ∧
      (histogram.Canonical → histogram'.Canonical) := by
  by_cases hc : count = 0
  · subst hc
    exact ⟨histogram, increment_zero histogram hl, by simp, id⟩
  · refine ⟨⟨histogram.entries.insert length (histogram.count length + count)⟩, ?_, ?_, ?_⟩
    · have hsafe : ¬count > MAX_COUNT - histogram.count length := by omega
      simp [increment, ensure_valid_length, ensure_addition_safe, show ¬length < 2 by omega, hc,
        hsafe, bind, Except.bind, pure, Except.pure]
    · intro k
      rw [count_eq, Std.ExtTreeMap.getElem?_insert]
      by_cases hk : length = k
      · subst hk
        simp
      · simp [hk, count_eq]
    · intro hcan k n hk
      rw [Std.ExtTreeMap.getElem?_insert] at hk
      by_cases he : length = k
      · subst he
        simp at hk
        omega
      · simp [he] at hk
        exact hcan k n hk

theorem increment_overflow (histogram : CycleHistogram) {length count : Nat} (hl : 2 ≤ length)
    (hc : count ≠ 0) (hfit : MAX_COUNT < histogram.count length + count) :
    histogram.increment length count = .error (.overflow_error "cycle histogram count overflow") := by
  have hsafe : count > MAX_COUNT - histogram.count length := by omega
  simp [increment, ensure_valid_length, ensure_addition_safe, show ¬length < 2 by omega, hc,
    hsafe, bind, Except.bind]

@[simp] theorem record_nil (histogram : CycleHistogram) : histogram.record [] = .ok histogram := rfl

theorem record_cons (histogram : CycleHistogram) (event : Nat × Nat)
    (events : List (Nat × Nat)) :
    histogram.record (event :: events) =
      (histogram.increment event.1 event.2).bind fun histogram => histogram.record events := rfl

theorem record_append (histogram : CycleHistogram) (events more : List (Nat × Nat)) :
    histogram.record (events ++ more) =
      (histogram.record events).bind fun histogram => histogram.record more := by
  rw [record, List.foldlM_append]
  rfl

-- A run that fits adds its tally at every length.
theorem record_ok (histogram : CycleHistogram) (events : List (Nat × Nat))
    (hl : ∀ event ∈ events, 2 ≤ event.1) (hfit : histogram.Fits events) :
    ∃ histogram', histogram.record events = .ok histogram' ∧
      (∀ k, histogram'.count k = histogram.count k + tally events k) ∧
      (histogram.Canonical → histogram'.Canonical) := by
  induction events generalizing histogram with
  | nil => exact ⟨histogram, rfl, by simp, id⟩
  | cons event events ih =>
      have hone : histogram.count event.1 + event.2 ≤ MAX_COUNT := by
        have := hfit event.1
        rw [tally_cons, if_pos rfl] at this
        omega
      obtain ⟨middle, hm, hcount, hcan⟩ := increment_ok histogram (hl event (by simp)) hone
      obtain ⟨last, hr, hcount', hcan'⟩ := ih middle
        (fun e he => hl e (List.mem_cons_of_mem _ he))
        (fun k => by
          have := hfit k
          rw [tally_cons] at this
          rw [hcount]
          omega)
      refine ⟨last, by rw [record_cons, hm]; exact hr, fun k => ?_, hcan' ∘ hcan⟩
      rw [hcount', hcount, tally_cons, Nat.add_assoc]

-- A run can only stop with an overflow.
theorem record_cases (histogram : CycleHistogram) (events : List (Nat × Nat))
    (hl : ∀ event ∈ events, 2 ≤ event.1) :
    (∃ histogram', histogram.record events = .ok histogram') ∨
      histogram.record events = .error (.overflow_error "cycle histogram count overflow") := by
  induction events generalizing histogram with
  | nil => exact Or.inl ⟨histogram, rfl⟩
  | cons event events ih =>
      have hl' := hl event (by simp)
      have hrest : ∀ e ∈ events, 2 ≤ e.1 := fun e he => hl e (List.mem_cons_of_mem _ he)
      rw [record_cons]
      by_cases hc : event.2 = 0
      · rw [hc, increment_zero histogram hl']
        exact ih histogram hrest
      · by_cases hfit : histogram.count event.1 + event.2 ≤ MAX_COUNT
        · obtain ⟨middle, hm, -⟩ := increment_ok histogram hl' hfit
          rw [hm]
          exact ih middle hrest
        · exact Or.inr (by rw [increment_overflow histogram hl' hc (by omega)]; rfl)

-- A run that does not fit stops.
theorem record_overflow (histogram : CycleHistogram) (events : List (Nat × Nat))
    (hl : ∀ event ∈ events, 2 ≤ event.1) (hmax : ∀ k, histogram.count k ≤ MAX_COUNT)
    (hfit : ¬histogram.Fits events) :
    histogram.record events = .error (.overflow_error "cycle histogram count overflow") := by
  induction events generalizing histogram with
  | nil => exact absurd (fun k => by simpa using hmax k) hfit
  | cons event events ih =>
      have hl' := hl event (by simp)
      by_cases hone : histogram.count event.1 + event.2 ≤ MAX_COUNT
      · obtain ⟨middle, hm, hcount, -⟩ := increment_ok histogram hl' hone
        rw [record_cons, hm]
        apply ih middle (fun e he => hl e (List.mem_cons_of_mem _ he))
        · intro k
          rw [hcount]
          split_ifs with hk
          · exact hk ▸ hone
          · simpa using hmax k
        · intro hfit'
          refine hfit fun k => ?_
          have := hfit' k
          rw [hcount] at this
          rw [tally_cons]
          omega
      · have hc : event.2 ≠ 0 := by
          have := hmax event.1
          omega
        rw [record_cons, increment_overflow histogram hl' hc (by omega)]
        rfl

-- Runs with the same tallies end in the same histogram, or both overflow.
theorem record_congr {events more : List (Nat × Nat)} (hl : ∀ event ∈ events, 2 ≤ event.1)
    (hl' : ∀ event ∈ more, 2 ≤ event.1) (h : ∀ k, tally events k = tally more k) :
    (∅ : CycleHistogram).record events = (∅ : CycleHistogram).record more := by
  by_cases hfit : (∅ : CycleHistogram).Fits events
  · have hfit' : (∅ : CycleHistogram).Fits more := fun k => h k ▸ hfit k
    obtain ⟨a, ha, hca, hna⟩ := record_ok ∅ events hl hfit
    obtain ⟨b, hb, hcb, hnb⟩ := record_ok ∅ more hl' hfit'
    rw [ha, hb, (hna canonical_empty).ext (hnb canonical_empty) fun k => by rw [hca, hcb, h]]
  · have hfit' : ¬(∅ : CycleHistogram).Fits more := fun hf => hfit fun k => h k ▸ hf k
    rw [record_overflow ∅ events hl (by simp) hfit, record_overflow ∅ more hl' (by simp) hfit']

-- A run that ended well had lengths of cycles only.
theorem two_le_of_record {histogram histogram' : CycleHistogram} {events : List (Nat × Nat)}
    (h : histogram.record events = .ok histogram') : ∀ event ∈ events, 2 ≤ event.1 := by
  induction events generalizing histogram with
  | nil => simp
  | cons event events ih =>
      rw [record_cons] at h
      cases hi : histogram.increment event.1 event.2 with
      | error error => simp [hi, Except.bind] at h
      | ok middle =>
          rw [hi] at h
          intro other ho
          rcases List.mem_cons.mp ho with rfl | ho
          · by_contra hlt
            simp [increment, ensure_valid_length, show other.1 < 2 by omega, bind,
              Except.bind] at hi
          · exact ih h other ho

-- A run that ended well did fit.
theorem fits_of_record {events : List (Nat × Nat)} (hl : ∀ event ∈ events, 2 ≤ event.1)
    {histogram : CycleHistogram} (h : (∅ : CycleHistogram).record events = .ok histogram) :
    (∅ : CycleHistogram).Fits events := by
  by_contra hfit
  rw [record_overflow ∅ events hl (by simp) hfit] at h
  cases h

-- A part of a run that ended well ends well by itself.
theorem record_part {events more : List (Nat × Nat)} (h : events.Subperm more)
    {histogram : CycleHistogram} (hmore : (∅ : CycleHistogram).record more = .ok histogram) :
    ∃ part, (∅ : CycleHistogram).record events = .ok part := by
  have hl := two_le_of_record hmore
  obtain ⟨part, hpart, -⟩ := record_ok ∅ events (fun event he => hl event (h.subset he)) fun k =>
    (Nat.add_le_add_left (tally_le h k) _).trans (fits_of_record hl hmore k)
  exact ⟨part, hpart⟩

theorem record_count {events : List (Nat × Nat)} (hl : ∀ event ∈ events, 2 ≤ event.1)
    {histogram : CycleHistogram} (h : (∅ : CycleHistogram).record events = .ok histogram) :
    histogram.Canonical ∧ ∀ k, histogram.count k = tally events k := by
  obtain ⟨a, ha, hca, hna⟩ := record_ok ∅ events hl (fits_of_record hl h)
  obtain rfl : a = histogram := Except.ok.inj (ha.symm.trans h)
  exact ⟨hna canonical_empty, fun k => by rw [hca, count_empty, Nat.zero_add]⟩

-- The counts of a result are the given numbers up to the cap, without any other
-- entry, unless one of these numbers does not fit a count.
def Counts (result : Except Error CycleHistogram) (cap : Option Nat) (number : Nat → Nat) : Prop :=
  (∃ histogram, result = .ok histogram ∧ ∀ k, histogram.entries[k]? =
    if 2 ≤ k ∧ (∀ limit ∈ cap, k ≤ limit) ∧ number k ≠ 0 then some (number k) else none) ∨
  (result = .error (.overflow_error "cycle histogram count overflow") ∧
    ∃ k, 2 ≤ k ∧ (∀ limit ∈ cap, k ≤ limit) ∧ MAX_COUNT < number k)

theorem tally_eq_zero {events : List (Nat × Nat)} (hl : ∀ event ∈ events, 2 ≤ event.1) {k : Nat}
    (hk : k < 2) : tally events k = 0 :=
  tally_of_not_mem fun event he => by
    have := hl event he
    omega

theorem record_counts {events : List (Nat × Nat)} (hl : ∀ event ∈ events, 2 ≤ event.1)
    {cap : Option Nat} {number : Nat → Nat}
    (hin : ∀ k, 2 ≤ k → (∀ limit ∈ cap, k ≤ limit) → tally events k = number k)
    (hout : ∀ k, 2 ≤ k → ¬(∀ limit ∈ cap, k ≤ limit) → tally events k = 0) :
    Counts ((∅ : CycleHistogram).record events) cap number := by
  by_cases hfit : (∅ : CycleHistogram).Fits events
  · obtain ⟨histogram, hr, hcount, hcan⟩ := record_ok ∅ events hl hfit
    refine Or.inl ⟨histogram, hr, fun k => ?_⟩
    rw [(hcan canonical_empty).getElem?_eq, hcount, count_empty, Nat.zero_add]
    by_cases hk : 2 ≤ k
    · by_cases hle : ∀ limit ∈ cap, k ≤ limit
      · rw [hin k hk hle]
        by_cases hz : number k = 0
        · simp [hz]
        · rw [if_neg hz, if_pos ⟨hk, hle, hz⟩]
      · rw [hout k hk hle, if_pos rfl, if_neg fun h => hle h.2.1]
    · rw [tally_eq_zero hl (by omega), if_pos rfl, if_neg fun h => hk h.1]
  · refine Or.inr ⟨record_overflow ∅ events hl (by simp) hfit, ?_⟩
    obtain ⟨k, hk⟩ := not_forall.mp hfit
    rw [count_empty, Nat.zero_add, Nat.not_le] at hk
    have htwo : 2 ≤ k := by
      by_contra hlt
      rw [tally_eq_zero hl (by omega)] at hk
      omega
    have hle : ∀ limit ∈ cap, k ≤ limit := by
      by_contra hle
      rw [hout k htwo hle] at hk
      omega
    exact ⟨k, htwo, hle, hin k htwo hle ▸ hk⟩

theorem record_ok_iff {events : List (Nat × Nat)} (hl : ∀ event ∈ events, 2 ≤ event.1)
    {cap : Option Nat} {number : Nat → Nat}
    (hin : ∀ k, 2 ≤ k → (∀ limit ∈ cap, k ≤ limit) → tally events k = number k)
    (hout : ∀ k, 2 ≤ k → ¬(∀ limit ∈ cap, k ≤ limit) → tally events k = 0) :
    (∃ histogram, (∅ : CycleHistogram).record events = .ok histogram) ↔
      ∀ k, 2 ≤ k → (∀ limit ∈ cap, k ≤ limit) → number k ≤ MAX_COUNT := by
  constructor
  · intro hex k hk hle
    obtain ⟨histogram, hok⟩ := hex
    have hfit := fits_of_record hl hok k
    rwa [count_empty, Nat.zero_add, hin k hk hle] at hfit
  · intro hall
    rcases record_counts hl hin hout with ⟨histogram, hok, -⟩ | ⟨-, k, hk, hle, hmax⟩
    · exact ⟨histogram, hok⟩
    · have := hall k hk hle
      omega

-- The numbers of all counted lengths fit a count.
def NumbersFit (cap : Option Nat) (number : Nat → Nat) : Prop :=
  ∀ k, 2 ≤ k → (∀ limit ∈ cap, k ≤ limit) → number k ≤ MAX_COUNT

theorem Counts.finished {result : Except Error CycleHistogram} {cap : Option Nat}
    {number : Nat → Nat} (h : Counts result cap number) : result ≠ .error .unfinished := by
  rcases h with ⟨histogram, hok, -⟩ | ⟨hover, -⟩
  · simp [hok]
  · simp [hover]

theorem Counts.returns {result : Except Error CycleHistogram} {cap : Option Nat}
    {number : Nat → Nat} (h : Counts result cap number) (hfit : NumbersFit cap number) :
    ∃ histogram, result = .ok histogram := by
  rcases h with ⟨histogram, hok, -⟩ | ⟨-, k, hk, hle, hmax⟩
  · exact ⟨histogram, hok⟩
  · have := hfit k hk hle
    omega

-- A run whose tallies are those of another one up to a limit ends in the
-- restriction of its histogram.
theorem record_restrict {events part : List (Nat × Nat)} {limit : Nat} {histogram : CycleHistogram}
    (hl : ∀ event ∈ events, 2 ≤ event.1) (hl' : ∀ event ∈ part, 2 ≤ event.1)
    (h : ∀ k, tally part k = if k ≤ limit then tally events k else 0)
    (hr : (∅ : CycleHistogram).record events = .ok histogram) :
    (∅ : CycleHistogram).record part = .ok (histogram.restrict limit) := by
  have hfit : (∅ : CycleHistogram).Fits part := fun k => by
    have := fits_of_record hl hr k
    rw [h k]
    split_ifs <;> omega
  obtain ⟨hcan, hcount⟩ := record_count hl hr
  obtain ⟨ended, hp, hcount', hcan'⟩ := record_ok ∅ part hl' hfit
  have hkept : ∀ k, (histogram.restrict limit).entries[k]? =
      if k ≤ limit then histogram.entries[k]? else none := by
    intro k
    rw [restrict, Std.ExtTreeMap.getElem?_filter']
    cases histogram.entries[k]? <;> simp [Option.filter]
  have hrestrict : (histogram.restrict limit).Canonical := by
    intro k count hk
    rw [hkept] at hk
    split_ifs at hk
    exact hcan k count hk
  rw [hp]
  congr 1
  refine (hcan' canonical_empty).ext hrestrict fun k => ?_
  rw [hcount', count_empty, Nat.zero_add, h, count_eq _ k, hkept]
  split_ifs
  · rw [← count_eq, hcount]
  · rfl

end CycleHistogram

end CycleEnum
