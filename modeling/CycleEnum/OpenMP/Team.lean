import CycleEnum.Core.Counting
import CycleEnum.Core.VertexLoop
import CycleEnum.Core.Grouping
import CycleEnum.Core.Merge
import Mathlib.Data.List.Flatten

namespace CycleEnum.OpenMP

-- The iterations of a work-sharing loop in the order in which they are taken, each
-- with the thread that takes it: every iteration is taken once.
structure IsSchedule (threads items : Nat) (schedule : List (Nat × Nat)) : Prop where
  threads_lt : ∀ pair ∈ schedule, pair.1 < threads
  once : (schedule.map (·.2)).Perm (List.range items)

-- The iterations of one thread in their order.
def items_of (schedule : List (Nat × Nat)) (thread : Nat) : List Nat :=
  (schedule.filter (·.1 = thread)).map (·.2)

-- A thread works on its own worker only.
def run_schedule {σ : Type} (visit : Nat → σ → Except Error σ) (schedule : List (Nat × Nat))
    (workers : Nat → σ) : Except Error (Nat → σ) :=
  schedule.foldlM (fun workers pair =>
    (visit pair.2 (workers pair.1)).map (Function.update workers pair.1)) workers

section Schedule

variable {σ : Type} {visit : Nat → σ → Except Error σ} {schedule : List (Nat × Nat)}

theorem run_schedule_cons (thread item : Nat) (workers : Nat → σ) :
    run_schedule visit ((thread, item) :: schedule) workers =
      (visit item (workers thread)).bind fun worker =>
        run_schedule visit schedule (Function.update workers thread worker) := by
  rw [run_schedule, List.foldlM_cons]
  cases visit item (workers thread) with
  | error error => rfl
  | ok worker => rfl

-- However the threads interleave, each one runs its own iterations in their order.
theorem run_schedule_ok {workers workers' : Nat → σ}
    (h : ∀ thread, (items_of schedule thread).foldlM (fun worker item => visit item worker)
      (workers thread) = .ok (workers' thread)) :
    run_schedule visit schedule workers = .ok workers' := by
  induction schedule generalizing workers with
  | nil =>
      have hsame : workers = workers' := funext fun thread => Except.ok.inj (h thread)
      rw [hsame]
      rfl
  | cons pair schedule ih =>
      obtain ⟨thread, item⟩ := pair
      have hown := h thread
      simp only [items_of, List.filter_cons_of_pos, decide_true, List.map_cons,
        List.foldlM_cons] at hown
      cases hvisit : visit item (workers thread) with
      | error error => simp [hvisit, bind, Except.bind] at hown
      | ok worker =>
          rw [hvisit] at hown
          rw [run_schedule_cons, hvisit]
          refine ih fun other => ?_
          by_cases ho : other = thread
          · subst ho
            rw [Function.update_self]
            exact hown
          · rw [Function.update_of_ne ho]
            have hother := h other
            rw [items_of, List.filter_cons_of_neg (by simpa using Ne.symm ho)] at hother
            exact hother

theorem run_schedule_threads {workers workers' : Nat → σ}
    (h : run_schedule visit schedule workers = .ok workers') (thread : Nat) :
    (items_of schedule thread).foldlM (fun worker item => visit item worker) (workers thread) =
      .ok (workers' thread) := by
  induction schedule generalizing workers with
  | nil =>
      obtain rfl := Except.ok.inj h
      rfl
  | cons pair schedule ih =>
      obtain ⟨own, item⟩ := pair
      rw [run_schedule_cons] at h
      cases hvisit : visit item (workers own) with
      | error error => simp [hvisit, Except.bind] at h
      | ok worker =>
          rw [hvisit] at h
          have hrest := ih h
          by_cases ho : thread = own
          · subst ho
            rw [Function.update_self] at hrest
            simp only [items_of, List.filter_cons_of_pos, decide_true, List.map_cons,
              List.foldlM_cons, hvisit]
            exact hrest
          · rw [Function.update_of_ne ho] at hrest
            rw [items_of, List.filter_cons_of_neg (by simpa using Ne.symm ho)]
            exact hrest

theorem run_schedule_congr {visit' : Nat → σ → Except Error σ} {workers : Nat → σ}
    (h : ∀ pair ∈ schedule, visit pair.2 = visit' pair.2) :
    run_schedule visit schedule workers = run_schedule visit' schedule workers := by
  induction schedule generalizing workers with
  | nil => rfl
  | cons pair schedule ih =>
      obtain ⟨thread, item⟩ := pair
      rw [run_schedule_cons, run_schedule_cons, h _ List.mem_cons_self]
      exact congrArg _ (funext fun worker => ih fun pair hp => h pair (List.mem_cons_of_mem _ hp))

-- A team of one thread in effect: all iterations on the same thread.
theorem run_schedule_single (thread : Nat) (items : List Nat) (workers : Nat → σ) :
    run_schedule visit (items.map fun item => (thread, item)) workers =
      (items.foldlM (fun worker item => visit item worker) (workers thread)).map
        (Function.update workers thread) := by
  induction items generalizing workers with
  | nil => simp [run_schedule, Except.map, pure, Except.pure]
  | cons item items ih =>
      rw [List.map_cons, run_schedule_cons, List.foldlM_cons]
      cases visit item (workers thread) with
      | error error => rfl
      | ok worker =>
          have hrest := ih (Function.update workers thread worker)
          rw [Function.update_self] at hrest
          refine hrest.trans ?_
          change _ = (items.foldlM (fun worker item => visit item worker) worker).map _
          cases items.foldlM (fun worker item => visit item worker) worker with
          | error error => rfl
          | ok last => simp [Except.map]

theorem is_schedule_single {threads : Nat} (h : 0 < threads) (items : Nat) :
    IsSchedule threads items ((List.range items).map fun item => (0, item)) := by
  refine ⟨fun pair hp => ?_, ?_⟩
  · obtain ⟨item, -, rfl⟩ := List.mem_map.mp hp
    exact h
  · rw [List.map_map]
    exact List.Perm.of_eq (List.map_id _)

variable {threads items : Nat}

theorem IsSchedule.perm_items (h : IsSchedule threads items schedule) :
    ((List.range threads).flatMap (items_of schedule)).Perm (List.range items) := by
  have hgroups := perm_flatMap_groups (List.nodup_range (n := threads)) (fun pair : Nat × Nat => pair.1)
    schedule fun pair hp => List.mem_range.mpr (h.threads_lt pair hp)
  have hmap := hgroups.map (·.2)
  rw [List.map_flatMap] at hmap
  exact hmap.trans h.once

-- Below 2^32 iterations a `VertexId` holds each of them.
theorem IsSchedule.run_narrow (h : IsSchedule threads items schedule) (hitems : items < 2 ^ 32)
    (workers : Nat → σ) :
    run_schedule (fun item => visit (item % 2 ^ 32)) schedule workers =
      run_schedule visit schedule workers := by
  refine run_schedule_congr fun pair hp => ?_
  have hlt := List.mem_range.mp (h.once.mem_iff.mp (List.mem_map_of_mem hp))
  exact congrArg visit (Nat.mod_eq_of_lt (by omega))

theorem IsSchedule.mem_items (h : IsSchedule threads items schedule) {thread item : Nat}
    (hi : item ∈ items_of schedule thread) : item < items := by
  obtain ⟨pair, hp, rfl⟩ := List.mem_map.mp hi
  have hmem := h.once.mem_iff.mp (List.mem_map_of_mem (List.mem_filter.mp hp).1)
  exact List.mem_range.mp hmem

end Schedule

-- Workers with more state than their counters and histograms.
theorem foldlM_view {α σ S : Type} {visit : α → σ → Except Error σ} {search : α → S → Search S}
    {view : σ → S × CycleHistogram}
    (h : ∀ item worker, (visit item worker).map view =
      search item (view worker).1 (view worker).2) (items : List α) (worker : σ) :
    (items.foldlM (fun worker item => visit item worker) worker).map view =
      items.foldlM (fun stats item => search item stats) (view worker).1 (view worker).2 := by
  induction items generalizing worker with
  | nil => rfl
  | cons item items ih =>
      rw [List.foldlM_cons, List.foldlM_cons]
      change _ = (search item (view worker).1 (view worker).2).bind fun p =>
        items.foldlM (fun stats item => search item stats) p.1 p.2
      rw [← h]
      cases visit item worker with
      | error error => rfl
      | ok next => exact ih next

-- The same for the loop over the roots.
theorem root_loop_view {σ S : Type} {visit : Nat → σ → Except Error σ} {search : Nat → S → Search S}
    {view : σ → S × CycleHistogram} {vertex_count : Nat}
    (h : ∀ root worker, (visit root worker).map view =
      search root (view worker).1 (view worker).2) (fuel root : Nat) (worker : σ) :
    (root_loop vertex_count (fun worker root => visit root worker) fuel root worker).map view =
      root_loop vertex_count (fun stats root => search root stats) fuel root (view worker).1
        (view worker).2 := by
  induction fuel generalizing root worker with
  | zero => rfl
  | succ fuel ih =>
      rw [root_loop, root_loop]
      split_ifs
      · change _ = (search root (view worker).1 (view worker).2).bind fun p =>
          root_loop vertex_count (fun stats root => search root stats) fuel (next_id root) p.1 p.2
        rw [← h]
        cases visit root worker with
        | error error => rfl
        | ok next => exact ih (next_id root) next
      · rfl

section Exact

variable {S : Type} [AddCommMonoid S] {search : Nat → S → Search S}

-- What the search from one root adds to the histogram and to the counters.
structure Effects (search : Nat → S → Search S) (events : Nat → List (Nat × Nat))
    (result : Nat → Except Error S) : Prop where
  spec : ∀ root stats histogram, search root stats histogram =
    (histogram.record (events root)).bind fun histogram =>
      (result root).map fun cost => (stats + cost, histogram)

variable {events : Nat → List (Nat × Nat)} {result : Nat → Except Error S}

-- The loop over some roots, one after the other.
theorem Effects.foldlM_eq (h : Effects search events result) {cost : Nat → S} {roots : List Nat}
    (hcost : ∀ root ∈ roots, result root = .ok (cost root)) (stats : S)
    (histogram : CycleHistogram) :
    roots.foldlM (fun stats root => search root stats) stats histogram =
      (histogram.record (roots.flatMap events)).map fun histogram =>
        (stats + (roots.map cost).sum, histogram) := by
  induction roots generalizing stats histogram with
  | nil =>
      change Except.ok (stats, histogram) = .ok (stats + 0, histogram)
      rw [add_zero]
  | cons root roots ih =>
      have ih := ih fun other ho => hcost other (List.mem_cons_of_mem _ ho)
      rw [List.foldlM_cons, List.flatMap_cons, CycleHistogram.record_append]
      change (search root stats histogram).bind (fun p =>
        roots.foldlM (fun stats root => search root stats) p.1 p.2) = _
      rw [h.spec, hcost root (by simp)]
      cases histogram.record (events root) with
      | error error => rfl
      | ok middle =>
          refine (ih (stats + cost root) middle).trans ?_
          rw [List.map_cons, List.sum_cons, add_assoc]
          rfl

-- A loop that ends well had a result from every root.
theorem Effects.results (h : Effects search events result) {roots : List Nat} {stats : S}
    {histogram : CycleHistogram} {last : S × CycleHistogram}
    (hok : roots.foldlM (fun stats root => search root stats) stats histogram = .ok last) :
    ∀ root ∈ roots, ∃ cost, result root = .ok cost := by
  induction roots generalizing stats histogram with
  | nil => simp
  | cons root roots ih =>
      rw [List.foldlM_cons] at hok
      change (search root stats histogram).bind (fun p =>
        roots.foldlM (fun stats root => search root stats) p.1 p.2) = _ at hok
      rw [h.spec] at hok
      cases hrecord : histogram.record (events root) with
      | error error => simp [hrecord, Except.bind] at hok
      | ok middle =>
          rw [hrecord] at hok
          cases hresult : result root with
          | error error => simp [hresult, Except.bind, Except.map] at hok
          | ok cost =>
              rw [hresult] at hok
              intro other ho
              rcases List.mem_cons.mp ho with rfl | ho
              · exact ⟨cost, hresult⟩
              · exact ih hok other ho

variable {σ : Type} {visit : Nat → σ → Except Error σ} {view : σ → S × CycleHistogram}
  {schedule : List (Nat × Nat)} {threads items : Nat}

-- What one thread records is a part of the whole.
theorem IsSchedule.subperm_events (hs : IsSchedule threads items schedule)
    (events : Nat → List (Nat × Nat)) {thread : Nat} (ht : thread < threads) :
    ((items_of schedule thread).flatMap events).Subperm ((List.range items).flatMap events) := by
  have hsub : (items_of schedule thread).Sublist
      ((List.range threads).flatMap (items_of schedule)) :=
    List.sublist_flatten_of_mem (List.mem_map_of_mem (List.mem_range.mpr ht))
  exact (hsub.flatMap events).subperm.trans (hs.perm_items.flatMap_right events).subperm

-- There are no iterations of a thread outside the team.
theorem IsSchedule.items_of_eq_nil (hs : IsSchedule threads items schedule) {thread : Nat}
    (ht : ¬thread < threads) : items_of schedule thread = [] := by
  rw [items_of, List.filter_eq_nil_iff.mpr fun pair hp => ?_, List.map_nil]
  have := hs.threads_lt pair hp
  simp only [decide_eq_true_eq]
  omega

theorem IsSchedule.exists_thread (hs : IsSchedule threads items schedule) {item : Nat}
    (hi : item < items) : ∃ thread, item ∈ items_of schedule thread := by
  obtain ⟨pair, hp, rfl⟩ := List.mem_map.mp (hs.once.mem_iff.mpr (List.mem_range.mpr hi))
  exact ⟨pair.1, List.mem_map_of_mem (List.mem_filter.mpr ⟨hp, by simp⟩)⟩

-- The roots of one thread.
theorem Effects.foldlM_thread (h : Effects search events result)
    (hview : ∀ root worker, (visit root worker).map view =
      search root (view worker).1 (view worker).2) {start : σ} (hstart : view start = (0, ∅))
    {cost : Nat → S} {roots : List Nat} (hcost : ∀ root ∈ roots, result root = .ok (cost root)) :
    (roots.foldlM (fun worker root => visit root worker) start).map view =
      ((∅ : CycleHistogram).record (roots.flatMap events)).map fun histogram =>
        ((roots.map cost).sum, histogram) := by
  rw [foldlM_view hview, hstart, h.foldlM_eq hcost, zero_add]

theorem IsSchedule.merge_all_eq (hs : IsSchedule threads items schedule)
    {locals : Nat → CycleHistogram}
    (hlocal : ∀ thread, (∅ : CycleHistogram).record ((items_of schedule thread).flatMap events) =
      .ok (locals thread)) :
    CycleHistogram.merge_all ((List.range threads).map locals) =
      (∅ : CycleHistogram).record ((List.range items).flatMap events) := by
  have hparts : List.Forall₂ (fun one events => (∅ : CycleHistogram).record events = .ok one)
      ((List.range threads).map locals)
      ((List.range threads).map fun thread => (items_of schedule thread).flatMap events) :=
    List.forall₂_map_left_iff.mpr (List.forall₂_map_right_iff.mpr
      (List.forall₂_same.mpr fun thread _ => hlocal thread))
  have hpart : ∀ part ∈ (List.range threads).map fun thread =>
      (items_of schedule thread).flatMap events, ∀ event ∈ part, 2 ≤ event.1 := by
    intro part hp
    obtain ⟨thread, -, rfl⟩ := List.mem_map.mp hp
    exact CycleHistogram.two_le_of_record (hlocal thread)
  have hperm : ((List.range threads).map fun thread =>
      (items_of schedule thread).flatMap events).flatten.Perm
        ((List.range items).flatMap events) := by
    rw [← List.flatMap_def, ← List.flatMap_assoc]
    exact hs.perm_items.flatMap_right events
  have hl : ∀ event ∈ ((List.range threads).map fun thread =>
      (items_of schedule thread).flatMap events).flatten, 2 ≤ event.1 := fun event he => by
    obtain ⟨part, hp, he⟩ := List.mem_flatten.mp he
    exact hpart part hp event he
  rw [CycleHistogram.merge_all_eq hparts hpart]
  exact CycleHistogram.record_congr hl (fun event he => hl event (hperm.mem_iff.mpr he))
    fun k => CycleHistogram.tally_perm hperm k

theorem IsSchedule.sum_eq (hs : IsSchedule threads items schedule) (cost : Nat → S) :
    ((List.range threads).map fun thread => ((items_of schedule thread).map cost).sum).sum =
      ((List.range items).map cost).sum := by
  rw [← (hs.perm_items.map cost).sum_eq, List.map_flatMap, List.flatMap_def, List.sum_flatten,
    List.map_map]
  rfl

-- If one thread alone ends well, every team does, on every schedule, with the same
-- histogram and the same counters.
theorem team_exact (h : Effects search events result)
    (hview : ∀ root worker, (visit root worker).map view =
      search root (view worker).1 (view worker).2) {start : σ} (hstart : view start = (0, ∅))
    {stats : S} {histogram : CycleHistogram}
    (hseq : (List.range items).foldlM (fun stats root => search root stats) 0 ∅ =
      .ok (stats, histogram)) (hs : IsSchedule threads items schedule) :
    ∃ workers, run_schedule visit schedule (fun _ => start) = .ok workers ∧
      CycleHistogram.merge_all
        ((List.range threads).map fun thread => (view (workers thread)).2) = .ok histogram ∧
      ((List.range threads).map fun thread => (view (workers thread)).1).sum = stats := by
  obtain ⟨cost, hcost⟩ : ∃ cost : Nat → S, ∀ root ∈ List.range items,
      result root = .ok (cost root) := by
    choose! cost hcost using h.results hseq
    exact ⟨cost, hcost⟩
  rw [h.foldlM_eq hcost, zero_add] at hseq
  obtain ⟨hwhole, rfl⟩ : (∅ : CycleHistogram).record ((List.range items).flatMap events) =
      .ok histogram ∧ ((List.range items).map cost).sum = stats := by
    cases hrecord : (∅ : CycleHistogram).record ((List.range items).flatMap events) with
    | error error => simp [hrecord, Except.map] at hseq
    | ok whole =>
        rw [hrecord] at hseq
        obtain ⟨hstats, rfl⟩ := Prod.mk.inj (Except.ok.inj hseq)
        exact ⟨rfl, hstats⟩
  have hthread : ∀ thread, ∃ worker local_histogram,
      (items_of schedule thread).foldlM (fun worker item => visit item worker) start =
        .ok worker ∧
      (∅ : CycleHistogram).record ((items_of schedule thread).flatMap events) =
        .ok local_histogram ∧
      view worker = (((items_of schedule thread).map cost).sum, local_histogram) := by
    intro thread
    obtain ⟨local_histogram, hlocal⟩ : ∃ local_histogram,
        (∅ : CycleHistogram).record ((items_of schedule thread).flatMap events) =
          .ok local_histogram := by
      by_cases ht : thread < threads
      · exact CycleHistogram.record_part (hs.subperm_events events ht) hwhole
      · rw [hs.items_of_eq_nil ht]
        exact ⟨∅, rfl⟩
    have hfold := h.foldlM_thread hview hstart fun root hr =>
      hcost root (List.mem_range.mpr (hs.mem_items (show root ∈ items_of schedule thread from hr)))
    rw [hlocal] at hfold
    cases hworker : (items_of schedule thread).foldlM (fun worker item => visit item worker)
        start with
    | error error => simp [hworker, Except.map] at hfold
    | ok worker =>
        rw [hworker] at hfold
        exact ⟨worker, local_histogram, rfl, hlocal, Except.ok.inj hfold⟩
  choose workers locals hfold hlocal hworkers using hthread
  refine ⟨workers, run_schedule_ok hfold, ?_, ?_⟩
  · simp only [hworkers]
    rw [hs.merge_all_eq hlocal, hwhole]
  · simp only [hworkers]
    exact hs.sum_eq cost

-- A team that ends well does what one thread alone does.
theorem team_returns (h : Effects search events result)
    (hview : ∀ root worker, (visit root worker).map view =
      search root (view worker).1 (view worker).2) {start : σ} (hstart : view start = (0, ∅))
    (hs : IsSchedule threads items schedule) {workers : Nat → σ}
    (hrun : run_schedule visit schedule (fun _ => start) = .ok workers) :
    (List.range items).foldlM (fun stats root => search root stats) 0 ∅ =
      (CycleHistogram.merge_all
        ((List.range threads).map fun thread => (view (workers thread)).2)).map fun histogram =>
          (((List.range threads).map fun thread => (view (workers thread)).1).sum, histogram) := by
  have hthread := run_schedule_threads hrun
  have hview' : ∀ thread, (items_of schedule thread).foldlM
      (fun stats root => search root stats) 0 ∅ = .ok (view (workers thread)) := by
    intro thread
    have hfold := foldlM_view hview (items_of schedule thread) start
    rw [hthread thread, hstart] at hfold
    exact hfold.symm
  obtain ⟨cost, hcost⟩ : ∃ cost : Nat → S, ∀ root ∈ List.range items,
      result root = .ok (cost root) := by
    have hresults : ∀ root ∈ List.range items, ∃ cost, result root = .ok cost := by
      intro root hr
      obtain ⟨thread, ht⟩ := hs.exists_thread (List.mem_range.mp hr)
      exact h.results (hview' thread) root ht
    choose! cost hcost using hresults
    exact ⟨cost, hcost⟩
  have hlocal : ∀ thread,
      (∅ : CycleHistogram).record ((items_of schedule thread).flatMap events) =
        .ok (view (workers thread)).2 ∧
      (view (workers thread)).1 = ((items_of schedule thread).map cost).sum := by
    intro thread
    have hfold := hview' thread
    rw [h.foldlM_eq fun root hr => hcost root (List.mem_range.mpr (hs.mem_items hr)),
      zero_add] at hfold
    cases hrecord : (∅ : CycleHistogram).record ((items_of schedule thread).flatMap events) with
    | error error => simp [hrecord, Except.map] at hfold
    | ok part =>
        rw [hrecord] at hfold
        obtain heq := Except.ok.inj hfold
        rw [← heq]
        exact ⟨rfl, rfl⟩
  rw [h.foldlM_eq hcost, zero_add, hs.merge_all_eq fun thread => (hlocal thread).1]
  have hsum : ((List.range threads).map fun thread => (view (workers thread)).1).sum =
      ((List.range items).map cost).sum := by
    rw [← hs.sum_eq cost]
    congr 1
    exact List.map_congr_left fun thread _ => (hlocal thread).2
  rw [hsum]

end Exact

end CycleEnum.OpenMP
