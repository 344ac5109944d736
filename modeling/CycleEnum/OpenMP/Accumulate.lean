import CycleEnum.OpenMP.Team
import Mathlib.Algebra.Order.BigOperators.Group.List
import Mathlib.Order.Interval.Set.OrdConnected

namespace CycleEnum.OpenMP

variable {σ M : Type} [AddCommMonoid M] {good : σ → Prop} {total : σ → M}

-- A step that adds a fixed amount to the total of a good state and leaves it good,
-- unless the step has undefined behaviour.
def Adds (good : σ → Prop) (total : σ → M) (amount : M) (step : σ → Except Error σ) : Prop :=
  ∀ state, good state → step state = .error .undefined ∨
    ∃ state', step state = .ok state' ∧ good state' ∧ total state' = total state + amount

namespace Adds

variable {α : Type} {items : List α} {amount : α → M} {steps : α → σ → Except Error σ}

theorem foldlM (h : ∀ item ∈ items, Adds good total (amount item) (steps item)) :
    Adds good total (items.map amount).sum
      fun state => items.foldlM (fun state item => steps item state) state := by
  induction items with
  | nil => exact fun state hgood => Or.inr ⟨state, rfl, hgood, by simp⟩
  | cons item items ih =>
      intro state hgood
      dsimp only
      rw [List.foldlM_cons]
      rcases h item (by simp) state hgood with hundefined | ⟨middle, hstep, hmiddle, htotal⟩
      · rw [hundefined]
        exact Or.inl rfl
      · rw [hstep]
        rcases ih (fun other ho => h other (List.mem_cons_of_mem _ ho)) middle hmiddle with
          hundefined | ⟨last, hrest, hlast, htotal'⟩
        · exact Or.inl hundefined
        · exact Or.inr ⟨last, hrest, hlast, by
            rw [htotal', htotal, List.map_cons, List.sum_cons, add_assoc]⟩

variable {visit : Nat → σ → Except Error σ} {amount : Nat → M} {schedule : List (Nat × Nat)}
  {threads items : Nat}

-- The totals of all threads, each with what its own iterations add.
theorem run_schedule_own (h : ∀ pair ∈ schedule, Adds good total (amount pair.2) (visit pair.2))
    {workers : Nat → σ} (hgood : ∀ thread, good (workers thread)) :
    run_schedule visit schedule workers = .error .undefined ∨
      ∃ workers', run_schedule visit schedule workers = .ok workers' ∧
        (∀ thread, good (workers' thread)) ∧ ∀ thread, total (workers' thread) =
          total (workers thread) + ((items_of schedule thread).map amount).sum := by
  induction schedule generalizing workers with
  | nil => exact Or.inr ⟨workers, rfl, hgood, fun thread => by simp [items_of]⟩
  | cons pair schedule ih =>
      obtain ⟨own, item⟩ := pair
      rw [run_schedule_cons]
      rcases h (own, item) (by simp) (workers own) (hgood own) with
        hundefined | ⟨worker, hvisit, hworker, htotal⟩
      · rw [hundefined]
        exact Or.inl rfl
      rw [hvisit]
      have hnext : ∀ thread, good (Function.update workers own worker thread) := by
        intro thread
        by_cases ht : thread = own
        · rw [ht, Function.update_self]
          exact hworker
        · rw [Function.update_of_ne ht]
          exact hgood thread
      rcases ih (fun p hp => h p (List.mem_cons_of_mem _ hp)) hnext with
        hundefined | ⟨workers', hrun, hgood', htotal'⟩
      · exact Or.inl hundefined
      refine Or.inr ⟨workers', hrun, hgood', fun thread => ?_⟩
      rw [htotal']
      by_cases ht : thread = own
      · subst ht
        rw [Function.update_self, htotal, items_of, items_of,
          List.filter_cons_of_pos (by simp), List.map_cons, List.map_cons, List.sum_cons, add_assoc]
      · rw [Function.update_of_ne ht, items_of, items_of,
          List.filter_cons_of_neg (by simpa using Ne.symm ht)]

-- Whatever the schedule, the team as a whole adds what every iteration adds.
theorem run_schedule (hs : IsSchedule threads items schedule)
    (h : ∀ item < items, Adds good total (amount item) (visit item)) {workers : Nat → σ}
    (hgood : ∀ thread, good (workers thread)) (hzero : ∀ thread, total (workers thread) = 0) :
    OpenMP.run_schedule visit schedule workers = .error .undefined ∨
      ∃ workers', OpenMP.run_schedule visit schedule workers = .ok workers' ∧
        (∀ thread, good (workers' thread)) ∧
        ((List.range threads).map fun thread => total (workers' thread)).sum =
          ((List.range items).map amount).sum := by
  have hpairs : ∀ pair ∈ schedule, Adds good total (amount pair.2) (visit pair.2) := by
    intro pair hp
    exact h pair.2 (List.mem_range.mp (hs.once.mem_iff.mp (List.mem_map_of_mem hp)))
  rcases run_schedule_own hpairs hgood with hundefined | ⟨workers', hrun, hgood', htotal⟩
  · exact Or.inl hundefined
  · refine Or.inr ⟨workers', hrun, hgood', ?_⟩
    rw [← hs.sum_eq amount]
    congr 1
    refine List.map_congr_left fun thread _ => ?_
    rw [htotal, hzero, zero_add]

end Adds

section Within

variable {α : Type} [PartialOrder M] [IsOrderedAddMonoid M] {fits : Set M}

-- A step that adds its amount wherever this leads from totals that fit to totals that fit.
def AddsWithin (fits : Set M) (good : σ → Prop) (total : σ → M) (amount : M)
    (step : σ → Except Error σ) : Prop :=
  ∀ state, good state → total state ∈ fits → total state + amount ∈ fits →
    ∃ state', step state = .ok state' ∧ good state' ∧ total state' = total state + amount

-- Amounts that all go the same way.
def OneWay (amounts : List M) : Prop := (∀ amount ∈ amounts, 0 ≤ amount) ∨ ∀ amount ∈ amounts, amount ≤ 0

omit [IsOrderedAddMonoid M] in
theorem OneWay.sublist {amounts others : List M} (h : OneWay amounts) (hs : others ⊆ amounts) :
    OneWay others :=
  h.imp (fun h amount hm => h amount (hs hm)) fun h amount hm => h amount (hs hm)

theorem sum_le_zero {amounts : List M} (h : ∀ amount ∈ amounts, amount ≤ 0) : amounts.sum ≤ 0 := by
  simpa using List.sum_le_card_nsmul amounts 0 h

-- On the way to a total that fits, every total fits.
theorem OneWay.part_fits (hconnected : fits.OrdConnected) {front back : List M}
    (h : OneWay (front ++ back)) {start : M} (hstart : start ∈ fits)
    (hend : start + (front ++ back).sum ∈ fits) : start + front.sum ∈ fits := by
  rw [List.sum_append, ← add_assoc] at hend
  rcases h with h | h
  · have hfront := List.sum_nonneg fun amount hm => h amount (List.mem_append_left back hm)
    have hback := List.sum_nonneg fun amount hm => h amount (List.mem_append_right front hm)
    exact hconnected.out hstart hend ⟨le_add_of_nonneg_right hfront, le_add_of_nonneg_right hback⟩
  · have hfront := sum_le_zero fun amount hm => h amount (List.mem_append_left back hm)
    have hback := sum_le_zero fun amount hm => h amount (List.mem_append_right front hm)
    exact hconnected.out hend hstart ⟨add_le_of_nonpos_right hback, add_le_of_nonpos_right hfront⟩

namespace AddsWithin

variable {items : List α} {amount : α → M} {steps : α → σ → Except Error σ}

theorem foldlM (hconnected : fits.OrdConnected) (hway : OneWay (items.map amount))
    (h : ∀ item ∈ items, AddsWithin fits good total (amount item) (steps item)) :
    AddsWithin fits good total (items.map amount).sum
      fun state => items.foldlM (fun state item => steps item state) state := by
  induction items with
  | nil => exact fun state hgood _ _ => ⟨state, rfl, hgood, by simp⟩
  | cons item items ih =>
      intro state hgood hstart hend
      rw [List.map_cons] at hway hend
      have hnext : total state + amount item ∈ fits := by
        have hpart := @OneWay.part_fits M _ _ _ fits hconnected [amount item] _ hway _ hstart hend
        rwa [List.sum_singleton] at hpart
      obtain ⟨middle, hstep, hmiddle, htotal⟩ := h item List.mem_cons_self state hgood hstart hnext
      rw [List.sum_cons, ← add_assoc, ← htotal] at hend
      obtain ⟨last, hrest, hlast, htotal'⟩ := ih (hway.sublist (List.subset_cons_self _ _))
        (fun other ho => h other (List.mem_cons_of_mem _ ho)) middle hmiddle (htotal ▸ hnext) hend
      refine ⟨last, ?_, hlast, ?_⟩
      · dsimp only at hrest ⊢
        rw [List.foldlM_cons, hstep]
        exact hrest
      · rw [htotal', htotal, List.map_cons, List.sum_cons, add_assoc]

-- Each thread of a team gets as far as its own iterations take it.
theorem run_schedule (hconnected : fits.OrdConnected) {threads items : Nat} {amount : Nat → M}
    {visit : Nat → σ → Except Error σ} {schedule : List (Nat × Nat)}
    (hs : IsSchedule threads items schedule) (hway : OneWay ((List.range items).map amount))
    (h : ∀ item < items, AddsWithin fits good total (amount item) (visit item))
    {workers : Nat → σ} (hgood : ∀ thread, good (workers thread))
    (hzero : ∀ thread, total (workers thread) = 0) (hstart : 0 ∈ fits)
    (hend : ((List.range items).map amount).sum ∈ fits) :
    ∃ workers', OpenMP.run_schedule visit schedule workers = .ok workers' ∧
      ∀ thread, good (workers' thread) ∧
        total (workers' thread) = ((items_of schedule thread).map amount).sum := by
  have hthread : ∀ thread, ∃ worker, (items_of schedule thread).foldlM
      (fun worker item => visit item worker) (workers thread) = .ok worker ∧ good worker ∧
        total worker = ((items_of schedule thread).map amount).sum := by
    intro thread
    have hperm : ((items_of schedule thread ++ (schedule.filter fun pair => !decide (pair.1 = thread)).map
        (·.2)).map amount).Perm ((List.range items).map amount) := by
      refine List.Perm.map _ (List.Perm.trans ?_ hs.once)
      rw [items_of, ← List.map_append]
      exact (List.filter_append_perm (fun pair : Nat × Nat => decide (pair.1 = thread)) schedule).map _
    have hall := hway.sublist hperm.subset
    rw [List.map_append] at hall hperm
    have hown : total (workers thread) + ((items_of schedule thread).map amount).sum ∈ fits := by
      rw [hzero]
      refine hall.part_fits hconnected hstart ?_
      rwa [hperm.sum_eq, zero_add]
    obtain ⟨worker, hrun, hworker, htotal⟩ := foldlM hconnected
      (hall.sublist (List.subset_append_left _ _)) (fun item hi => h item (hs.mem_items hi))
      (workers thread) (hgood thread) (hzero thread ▸ hstart) hown
    exact ⟨worker, hrun, hworker, by rw [htotal, hzero, zero_add]⟩
  choose workers' hrun hgood' htotal using hthread
  exact ⟨workers', run_schedule_ok hrun, fun thread => ⟨hgood' thread, htotal thread⟩⟩

end AddsWithin

end Within

end CycleEnum.OpenMP
