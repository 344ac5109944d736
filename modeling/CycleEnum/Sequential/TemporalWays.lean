import CycleEnum.Sequential.TemporalBundles
import CycleEnum.Sequential.TemporalInstances

namespace CycleEnum.Sequential

open Enumeration

-- One for the given time.
def at_time (time other : Int) : Nat := if other = time then 1 else 0

-- The number of paths that arrive at a time.
def arrived (bundle : TimestampBundle) (time : Int) : Nat := weight (at_time time) bundle

-- No count is out of range.
def Fits (bundle : TimestampBundle) : Prop := ∀ time, arrived bundle time ≤ MAX_COUNT

def added_at (added : List (Int × Nat)) (time : Int) : Nat :=
  (added.map fun a => a.2 * at_time time a.1).sum

def add_all (added : List (Int × Nat)) (bundle : TimestampBundle) : Except Error TimestampBundle :=
  added.foldlM (fun bundle a => add_at a.1 a.2 bundle) bundle

section Add

theorem add_count_ok_iff {target value : Nat} (ht : target ≤ MAX_COUNT) :
    (∃ sum, add_count target value = .ok sum) ↔ target + value ≤ MAX_COUNT := by
  unfold add_count
  split_ifs with hover
  · simp only [exists_false, false_iff]
    omega
  · simp only [Except.ok.injEq, exists_eq', true_iff]
    omega

theorem arrived_cons (entry : TimestampCount) (bundle : TimestampBundle) (time : Int) :
    arrived (entry :: bundle) time = entry.count * at_time time entry.timestamp + arrived bundle time :=
  rfl

theorem arrived_eq_zero {bundle : TimestampBundle} {time : Int}
    (h : ∀ entry ∈ bundle, entry.timestamp ≠ time) : arrived bundle time = 0 :=
  weight_eq_zero fun entry he => if_neg (h entry he)

theorem Fits.count_le {bundle : TimestampBundle} (h : Fits bundle) :
    ∀ entry ∈ bundle, entry.count ≤ MAX_COUNT := by
  intro entry he
  have hterm : entry.count * at_time entry.timestamp entry.timestamp ≤
      arrived bundle entry.timestamp := List.single_le_sum (fun _ _ => Nat.zero_le _) _
    (List.mem_map_of_mem (f := fun entry' => entry'.count * at_time entry.timestamp entry'.timestamp)
      he)
  rw [at_time, if_pos rfl, Nat.mul_one] at hterm
  exact hterm.trans (h _)

theorem Fits.tail {entry : TimestampCount} {bundle : TimestampBundle} (h : Fits (entry :: bundle)) :
    Fits bundle := by
  intro time
  have := h time
  rw [arrived_cons] at this
  omega

-- Adding succeeds exactly where the number at that time stays in range.
theorem add_at_ok_iff (time : Int) (value : Nat) {bundle : TimestampBundle}
    (hsorted : Ascending bundle) (hb : Fits bundle) (hvalue : value ≤ MAX_COUNT) :
    (∃ bundle', add_at time value bundle = .ok bundle') ↔ arrived bundle time + value ≤ MAX_COUNT := by
  induction bundle with
  | nil =>
      rw [add_at, arrived, weight_nil, Nat.zero_add]
      obtain ⟨sum, hsum⟩ := (add_count_ok_iff (Nat.zero_le MAX_COUNT)).mpr
        (show 0 + value ≤ MAX_COUNT by omega)
      rw [hsum]
      exact iff_of_true ⟨_, rfl⟩ hvalue
  | cons entry bundle ih =>
      obtain ⟨hfirst, hrest⟩ := List.pairwise_cons.mp hsorted
      have hcount := hb.count_le entry (by simp)
      rw [add_at, arrived_cons]
      split_ifs with hlt heq
      · have hnone : arrived bundle time = 0 := arrived_eq_zero fun other ho => by
          have := hfirst other ho
          omega
        obtain ⟨sum, hsum⟩ := (add_count_ok_iff (Nat.zero_le MAX_COUNT)).mpr
          (show 0 + value ≤ MAX_COUNT by omega)
        rw [hsum, hnone, at_time, if_neg (by omega)]
        exact iff_of_true ⟨_, rfl⟩ (by omega)
      · have hnone : arrived bundle time = 0 := arrived_eq_zero fun other ho => by
          have := hfirst other ho
          omega
        rw [hnone, at_time, if_pos heq.symm, Nat.mul_one, Nat.add_zero, ← add_count_ok_iff hcount]
        cases add_count entry.count value with
        | error error => exact iff_of_false (by rintro ⟨_, h⟩; cases h) (by rintro ⟨_, h⟩; cases h)
        | ok sum => exact iff_of_true ⟨_, rfl⟩ ⟨_, rfl⟩
      · rw [at_time, if_neg (fun he => heq he.symm), Nat.mul_zero, Nat.zero_add,
          ← ih hrest hb.tail]
        cases add_at time value bundle with
        | error error => exact iff_of_false (by rintro ⟨_, h⟩; cases h) (by rintro ⟨_, h⟩; cases h)
        | ok rest => exact iff_of_true ⟨_, rfl⟩ ⟨_, rfl⟩

theorem add_all_ok_iff (added : List (Int × Nat)) {bundle : TimestampBundle}
    (hsorted : Ascending bundle) (hb : Fits bundle) (hvalues : ∀ a ∈ added, a.2 ≤ MAX_COUNT) :
    (∃ bundle', add_all added bundle = .ok bundle') ↔
      ∀ time, arrived bundle time + added_at added time ≤ MAX_COUNT := by
  induction added generalizing bundle with
  | nil => exact iff_of_true ⟨_, rfl⟩ hb
  | cons a added ih =>
      obtain ⟨hvalue, hvalues⟩ := List.forall_mem_cons.mp hvalues
      have hsum : ∀ time, added_at (a :: added) time =
          a.2 * at_time time a.1 + added_at added time := fun time => rfl
      have hone := add_at_ok_iff a.1 a.2 hsorted hb hvalue
      rw [add_all, List.foldlM_cons]
      rcases add_at_gives a.1 a.2 bundle hsorted with ⟨what, -, herror⟩ | ⟨middle, hok, hc⟩
      · rw [herror] at hone ⊢
        refine iff_of_false (by rintro ⟨_, h⟩; cases h) fun hfits => ?_
        have hover : ¬arrived bundle a.1 + a.2 ≤ MAX_COUNT := fun hle => by
          obtain ⟨_, h⟩ := hone.mpr hle
          cases h
        have := hfits a.1
        rw [hsum, at_time, if_pos rfl] at this
        omega
      · have hle := hone.mp ⟨middle, hok⟩
        have hmiddle : ∀ time, arrived middle time = arrived bundle time + a.2 * at_time time a.1 :=
          fun time => by
            have := hc.weight_eq (at_time time)
            simpa [arrived] using this
        have hfits : Fits middle := by
          intro time
          rw [hmiddle]
          by_cases ht : a.1 = time
          · subst ht
            rw [at_time, if_pos rfl]
            omega
          · have := hb time
            rw [at_time, if_neg ht]
            omega
        rw [hok]
        refine (ih hc.ascending hfits hvalues).trans (forall_congr' fun time => ?_)
        rw [hmiddle, hsum, Nat.add_assoc]

theorem add_all_append (added more : List (Int × Nat)) (bundle : TimestampBundle) :
    add_all (added ++ more) bundle = (add_all added bundle).bind (add_all more) :=
  List.foldlM_append

end Add

variable {graph : GraphView} {cap : Option Nat} {width : Int}

-- The arrival times of all ways to follow an edge after the given arrivals, one for each
-- way.
def ways_along (graph : GraphView) (window_end : Int) (times : List Int) (edge : AdjacencyEntry) :
    List Int :=
  times.flatMap fun time => ((event_graph graph).later window_end time (edge_events edge)).map
    (timestamp_at graph.timestamps)

-- No time is reached in too many ways along the paths that the search extends: those
-- within the cap that some arrival leads back from.
def WaysFit (graph : GraphView) (cap : Option Nat) (root : Nat) (window_end : Int) :
    Nat → Nat → List Nat → List Int → Prop
  | 0, _, _, _ => True
  | fuel + 1, v, below, times =>
      (∃ time ∈ times, LeadsBack (event_graph graph) window_end root v time) →
        ∀ edge ∈ graph.outgoing_row v, edge.vertex ≠ root → edge.vertex ∉ v :: below →
          ¬cut cap (v :: below).length = true →
          (∀ time, (ways_along graph window_end times edge).count time ≤ MAX_COUNT) ∧
            WaysFit graph cap root window_end fuel edge.vertex (v :: below)
              (ways_along graph window_end times edge)

-- A bundle of the given arrivals.
structure Bundles (arrivals : TimestampBundle) (times : List Int) : Prop where
  ascending : Ascending arrivals
  weight_eq : ∀ f, weight f arrivals = (times.map f).sum
  mem_iff : ∀ time, time ∈ arrivals.map (·.timestamp) ↔ time ∈ times

theorem sum_at_time (times : List Int) (time : Int) :
    (times.map (at_time time)).sum = times.count time := by
  induction times with
  | nil => rfl
  | cons first times ih =>
      rw [List.map_cons, List.sum_cons, ih, List.count_cons, at_time]
      simp only [beq_iff_eq]
      omega

theorem Bundles.fits_iff {arrivals : TimestampBundle} {times : List Int}
    (h : Bundles arrivals times) : Fits arrivals ↔ ∀ time, times.count time ≤ MAX_COUNT := by
  refine forall_congr' fun time => ?_
  rw [arrived, h.weight_eq, sum_at_time]

section Extend

variable {window_end : Int} {edge : AdjacencyEntry} {arrivals : TimestampBundle} {times : List Int}

-- The additions that following an edge makes.
def additions (graph : GraphView) (window_end : Int) (arrivals : TimestampBundle)
    (edge : AdjacencyEntry) : List (Int × Nat) :=
  arrivals.flatMap fun arrival =>
    ((event_graph graph).later window_end arrival.timestamp (edge_events edge)).map
      fun offset => (timestamp_at graph.timestamps offset, arrival.count)

theorem sum_additions (f : Int → Nat) (arrivals : TimestampBundle) :
    ((additions graph window_end arrivals edge).map fun a => a.2 * f a.1).sum =
      weight (fun time => (((event_graph graph).later window_end time (edge_events edge)).map
        fun offset => f (timestamp_at graph.timestamps offset)).sum) arrivals := by
  induction arrivals with
  | nil => rfl
  | cons arrival arrivals ih =>
      have hmul : (((event_graph graph).later window_end arrival.timestamp (edge_events edge)).map
          fun offset => arrival.count * f (timestamp_at graph.timestamps offset)).sum =
          arrival.count * (((event_graph graph).later window_end arrival.timestamp
            (edge_events edge)).map fun offset => f (timestamp_at graph.timestamps offset)).sum :=
        List.sum_map_mul_left _ _ _
      rw [additions, List.flatMap_cons, List.map_append, List.sum_append, ← additions, ih,
        weight_cons, List.map_map, ← hmul]
      rfl

theorem sum_ways_along (f : Int → Nat) (times : List Int) :
    ((ways_along graph window_end times edge).map f).sum =
      (times.map fun time => (((event_graph graph).later window_end time (edge_events edge)).map
        fun offset => f (timestamp_at graph.timestamps offset)).sum).sum := by
  induction times with
  | nil => rfl
  | cons time times ih =>
      rw [ways_along, List.flatMap_cons, List.map_append, List.sum_append, ← ways_along, ih,
        List.map_map, List.map_cons, List.sum_cons]
      rfl

theorem extend_bundle_eq (hw : graph.WellFormed) {v : Nat} (he : edge ∈ graph.outgoing_row v)
    (window_end : Int) (arrivals : TimestampBundle) :
    TemporalJohnsonSearch.extend_bundle graph window_end arrivals edge =
      add_all (additions graph window_end arrivals edge) [] := by
  rw [TemporalJohnsonSearch.extend_bundle]
  generalize ([] : TimestampBundle) = bundle
  induction arrivals generalizing bundle with
  | nil => rfl
  | cons arrival arrivals ih =>
      obtain ⟨range, hr, ho⟩ := timestamps_after_later hw.slices he arrival.timestamp window_end
      rw [List.foldlM_cons, additions, List.flatMap_cons, add_all_append, hr, ← ho, ← additions,
        add_all, List.foldlM_map]
      change Except.bind (List.foldlM _ bundle range.offsets) _ = _
      congr 1
      funext middle
      exact ih middle

-- Following an edge succeeds exactly where no time is reached in too many ways.
theorem extend_bundle_ok_iff (window_end : Int) (hw : graph.WellFormed) {v : Nat}
    (he : edge ∈ graph.outgoing_row v)
    (h : Bundles arrivals times) (hfits : Fits arrivals) :
    (∃ next, TemporalJohnsonSearch.extend_bundle graph window_end arrivals edge = .ok next) ↔
      ∀ time, (ways_along graph window_end times edge).count time ≤ MAX_COUNT := by
  have hvalues : ∀ a ∈ additions graph window_end arrivals edge, a.2 ≤ MAX_COUNT := by
    intro a ha
    obtain ⟨arrival, harrival, ha⟩ := List.mem_flatMap.mp ha
    obtain ⟨offset, -, rfl⟩ := List.mem_map.mp ha
    exact hfits.count_le arrival harrival
  rw [extend_bundle_eq hw he, add_all_ok_iff _ List.Pairwise.nil (fun _ => Nat.zero_le _) hvalues]
  refine forall_congr' fun time => ?_
  rw [arrived, weight_nil, Nat.zero_add, added_at, sum_additions, h.weight_eq, ← sum_ways_along,
    sum_at_time]

theorem collects_of_extend (hw : graph.WellFormed) {v : Nat} (he : edge ∈ graph.outgoing_row v)
    {next : TimestampBundle}
    (hnext : TemporalJohnsonSearch.extend_bundle graph window_end arrivals edge = .ok next) :
    Collects [] (additions graph window_end arrivals edge) next := by
  rcases TemporalJohnsonSearch.extend_bundle_gives hw.slices he window_end arrivals with
    ⟨what, -, herror⟩ | ⟨other, hother, hc⟩
  · cases hnext.symm.trans herror
  · obtain rfl := Except.ok.inj (hnext.symm.trans hother)
    exact hc

theorem Bundles.extend (hw : graph.WellFormed) {v : Nat} (he : edge ∈ graph.outgoing_row v)
    (h : Bundles arrivals times) {next : TimestampBundle}
    (hnext : TemporalJohnsonSearch.extend_bundle graph window_end arrivals edge = .ok next) :
    Bundles next (ways_along graph window_end times edge) := by
  have hc := collects_of_extend hw he hnext
  refine ⟨hc.ascending, fun f => ?_, fun time => ?_⟩
  · rw [hc.weight_eq, weight_nil, Nat.zero_add, sum_additions, h.weight_eq, sum_ways_along]
  · rw [hc.times]
    simp only [List.map_nil, List.not_mem_nil, false_or, additions, ways_along, List.mem_map,
      List.mem_flatMap]
    constructor
    · rintro ⟨a, ⟨arrival, harrival, offset, ho, rfl⟩, rfl⟩
      exact ⟨arrival.timestamp, (h.mem_iff _).mp (List.mem_map_of_mem harrival), offset, ho, rfl⟩
    · rintro ⟨earlier, hearlier, offset, ho, rfl⟩
      obtain ⟨arrival, harrival, rfl⟩ := List.mem_map.mp ((h.mem_iff _).mpr hearlier)
      exact ⟨_, ⟨arrival, harrival, offset, ho, rfl⟩, rfl⟩

theorem multiply_count_ok {count multiplier : Nat} (h : count * multiplier ≤ MAX_COUNT) :
    multiply_count count multiplier = .ok (count * multiplier) := by
  rcases multiply_count_gives count multiplier with ⟨what, -, herror⟩ | ⟨product, hok, rfl⟩
  · unfold multiply_count at herror
    split_ifs at herror with hzero hover
    have hpos : 0 < count := by omega
    rw [gt_iff_lt, Nat.div_lt_iff_lt_mul hpos, Nat.mul_comm] at hover
    omega
  · exact hok

-- Closing succeeds where the number of closings is in range.
theorem closing_count_ok (hw : graph.WellFormed) {v : Nat} (he : edge ∈ graph.outgoing_row v)
    (hle : weight (fun time =>
      ((event_graph graph).later window_end time (edge_events edge)).length) arrivals ≤ MAX_COUNT) :
    ∃ count, TemporalJohnsonSearch.closing_count graph window_end arrivals edge = .ok count := by
  suffices hloop : ∀ total, total + weight (fun time =>
        ((event_graph graph).later window_end time (edge_events edge)).length) arrivals ≤ MAX_COUNT →
      ∃ count, arrivals.foldlM (fun total arrival => do
        let range ← timestamps_after graph.timestamps edge.timestamp_begin edge.timestamp_end
          arrival.timestamp window_end
        add_count total (← multiply_count arrival.count range.size)) total = Except.ok count from
    hloop 0 (by omega)
  clear hle
  induction arrivals with
  | nil => exact fun total _ => ⟨total, rfl⟩
  | cons arrival arrivals ih =>
      intro total hle
      rw [weight_cons] at hle
      obtain ⟨range, hr, ho⟩ := timestamps_after_later hw.slices he arrival.timestamp window_end
      rw [← ho, ← range.size_eq] at hle
      obtain ⟨sum, hsum⟩ := (add_count_ok_iff (show total ≤ MAX_COUNT by omega)).mpr
        (show total + arrival.count * range.size ≤ MAX_COUNT by omega)
      have hvalue : sum = total + arrival.count * range.size := by
        rcases add_count_gives total (arrival.count * range.size) with
          ⟨what, -, herror⟩ | ⟨other, hother, hvalue⟩
        · cases hsum.symm.trans herror
        · rw [Except.ok.inj (hsum.symm.trans hother), hvalue]
      obtain ⟨count, hcount⟩ := ih sum (by omega)
      refine ⟨count, ?_⟩
      rw [List.foldlM_cons, hr]
      change Except.bind (Except.bind (multiply_count _ _) _) _ = _
      rw [multiply_count_ok (by omega)]
      change Except.bind (add_count _ _) _ = _
      rw [hsum]
      exact hcount

end Extend

section Search

open TemporalJohnsonSearch

variable {root : Nat} {window_end : Int}

theorem leads_back_iff {v : Nat} {earliest : TimestampCount} {arrivals : TimestampBundle}
    {times : List Int} (h : Bundles (earliest :: arrivals) times) :
    LeadsBack (event_graph graph) window_end root v earliest.timestamp ↔
      ∃ time ∈ times, LeadsBack (event_graph graph) window_end root v time := by
  constructor
  · exact fun hl => ⟨_, (h.mem_iff _).mp (by simp), hl⟩
  · rintro ⟨time, ht, hl⟩
    obtain ⟨entry, he, rfl⟩ := List.mem_map.mp ((h.mem_iff time).mpr ht)
    rcases List.mem_cons.mp he with rfl | he
    · exact hl
    · exact hl.earlier (Int.le_of_lt (List.rel_of_pairwise_cons h.ascending he))

-- Where the answers are in range, the search from a bundle succeeds exactly where no
-- time is reached in too many ways.
theorem bundles_fit_iff (hw : graph.WellFormed) (fuel v : Nat) (below : List Nat)
    {arrivals : TimestampBundle} {times : List Int} (h : Bundles arrivals times)
    (hfits : Fits arrivals)
    (hanswer : ∀ k, weight (timed_tally graph cap root window_end fuel (v :: below) k) arrivals ≤
      MAX_COUNT) :
    BundlesFit graph cap root window_end fuel v below arrivals ↔
      WaysFit graph cap root window_end fuel v below times := by
  induction fuel generalizing v below arrivals times with
  | zero => exact Iff.rfl
  | succ fuel ih =>
      cases arrivals with
      | nil =>
          refine iff_of_true trivial ?_
          rintro ⟨time, ht, -⟩
          simpa using (h.mem_iff time).mpr ht
      | cons earliest arrivals =>
          rw [BundlesFit, WaysFit, leads_back_iff h]
          refine imp_congr_right fun _ => forall₂_congr fun edge he => ?_
          have hrow : ∀ k, weight (row_tally graph cap root window_end fuel v below edge k)
              (earliest :: arrivals) ≤ MAX_COUNT := by
            intro k
            refine le_trans ?_ (hanswer k)
            rw [funext (timed_tally_row root window_end fuel v below k), weight_sum]
            exact List.single_le_sum (fun _ _ => Nat.zero_le _) _ (List.mem_map_of_mem he)
          rw [EdgeFits]
          by_cases hr : edge.vertex = root
          · rw [if_pos hr]
            refine iff_of_true (closing_count_ok hw he ?_) fun hne => absurd hr hne
            have := hrow (length_of_size (v :: below).length)
            rwa [row_tally_close hr, if_pos rfl] at this
          rw [if_neg hr]
          by_cases hskip : edge.vertex ∈ v :: below ∨ cut cap (v :: below).length = true
          · rw [if_pos hskip]
            exact iff_of_true trivial fun _ hm hcut => (hskip.elim hm hcut).elim
          obtain ⟨hm, hcut⟩ := not_or.mp hskip
          rw [if_neg hskip]
          have hok := extend_bundle_ok_iff window_end hw he h hfits
          have hnext : ∀ next, extend_bundle graph window_end (earliest :: arrivals) edge = .ok next →
              (BundlesFit graph cap root window_end fuel edge.vertex (v :: below) next ↔
                WaysFit graph cap root window_end fuel edge.vertex (v :: below)
                  (ways_along graph window_end times edge)) := by
            intro next hextend
            have hbundle := h.extend hw he hextend
            refine ih edge.vertex (v :: below) hbundle
              (hbundle.fits_iff.mpr (hok.mp ⟨next, hextend⟩)) fun k => ?_
            have hc : Collects [] (additions graph window_end (earliest :: arrivals) edge) next :=
              collects_of_extend hw he hextend
            rw [row_tally_enter fuel hr hm hcut hc]
            exact hrow k
          constructor
          · rintro ⟨next, hextend, hrest⟩ - - -
            exact ⟨hok.mp ⟨next, hextend⟩, (hnext next hextend).mp hrest⟩
          · intro hways
            obtain ⟨hcount, hrest⟩ := hways hr hm hcut
            obtain ⟨next, hextend⟩ := hok.mpr hcount
            exact ⟨next, hextend, (hnext next hextend).mpr hrest⟩

theorem arrived_of_mem {bundle : TimestampBundle} (hsorted : Ascending bundle)
    {entry : TimestampCount} (he : entry ∈ bundle) : arrived bundle entry.timestamp = entry.count := by
  induction bundle with
  | nil => cases he
  | cons first bundle ih =>
      obtain ⟨hfirst, hrest⟩ := List.pairwise_cons.mp hsorted
      rw [arrived_cons]
      rcases List.mem_cons.mp he with rfl | he
      · rw [arrived_eq_zero fun other ho hother => by
          have := hfirst other ho
          omega]
        simp [at_time]
      · rw [ih hrest he, at_time, if_neg (Int.ne_of_lt (hfirst entry he))]
        omega

def event_times (graph : GraphView) (edge : AdjacencyEntry) : List Int :=
  (edge_events edge).map (timestamp_at graph.timestamps)

-- No partial path of the search, from any root, reaches a time in too many ways.
def PartialWaysFit (graph : GraphView) (width : Int) (cap : Option Nat) : Prop :=
  ∀ root ∈ List.range graph.vertex_count, ∀ edge ∈ graph.outgoing_row root, ∀ time,
    (event_times graph edge).count time ≤ MAX_COUNT ∧
      WaysFit graph cap root (time + width) graph.vertex_count edge.vertex [root]
        (List.replicate ((event_times graph edge).count time) time)

theorem start_counts_ok_iff (graph : GraphView) (edge : AdjacencyEntry) :
    (∃ counts, start_counts graph edge = .ok counts) ↔
      ∀ time, (event_times graph edge).count time ≤ MAX_COUNT := by
  have hadd : start_counts graph edge =
      add_all ((edge_events edge).map fun offset => (timestamp_at graph.timestamps offset, 1)) [] := by
    rw [add_all, List.foldlM_map]
    rfl
  rw [hadd, add_all_ok_iff _ List.Pairwise.nil (fun _ => Nat.zero_le _) fun a ha => by
    obtain ⟨offset, -, rfl⟩ := List.mem_map.mp ha
    exact (by decide : 1 ≤ MAX_COUNT)]
  refine forall_congr' fun time => ?_
  rw [arrived, weight_nil, Nat.zero_add, added_at, ← sum_at_time, event_times, List.map_map,
    List.map_map]
  simp only [Function.comp_def, Nat.one_mul]

theorem bundles_of_start {edge : AdjacencyEntry} {counts : TimestampBundle}
    (h : start_counts graph edge = .ok counts) : Bundles counts (event_times graph edge) := by
  have hc : Collects [] ((edge_events edge).map fun offset =>
      (timestamp_at graph.timestamps offset, 1)) counts := by
    rcases start_counts_gives graph edge with ⟨what, -, herror⟩ | ⟨other, hother, hc⟩
    · cases h.symm.trans herror
    · obtain rfl := Except.ok.inj (h.symm.trans hother)
      exact hc
  refine ⟨hc.ascending, fun f => ?_, fun time => ?_⟩
  · rw [hc.weight_eq, weight_nil, Nat.zero_add, event_times, List.map_map, List.map_map]
    simp only [Function.comp_def, Nat.one_mul]
  · rw [hc.times, event_times, List.map_map]
    simp only [List.map_nil, List.not_mem_nil, false_or]
    rfl

-- The entry of one time is a bundle of its own.
theorem Bundles.single {counts : TimestampBundle} {times : List Int} (h : Bundles counts times)
    {bundle : TimestampCount} (hb : bundle ∈ counts) :
    Bundles [bundle] (List.replicate (times.count bundle.timestamp) bundle.timestamp) := by
  have hcount : times.count bundle.timestamp = bundle.count := by
    rw [← sum_at_time, ← h.weight_eq]
    exact arrived_of_mem h.ascending hb
  have hpos : times.count bundle.timestamp ≠ 0 :=
    (List.count_pos_iff.mpr ((h.mem_iff _).mp (List.mem_map_of_mem hb))).ne'
  refine ⟨List.pairwise_singleton _ _, fun f => ?_, fun time => ?_⟩
  · rw [hcount, List.map_replicate, List.sum_replicate]
    simp
  · simp [List.mem_replicate, hpos]

-- What one start event counts is a part of the whole.
theorem start_tally_le (cap : Option Nat) {root : Nat} {edge : AdjacencyEntry}
    (hr : root ∈ List.range graph.vertex_count) (he : edge ∈ graph.outgoing_row root) (k : Nat)
    {counts : TimestampBundle} (hcounts : Bundles counts (event_times graph edge))
    {bundle : TimestampCount} (hb : bundle ∈ counts) :
    bundle.count * start_tally graph width cap root edge.vertex k bundle.timestamp ≤
      CycleHistogram.tally (temporal_events graph width cap) k := by
  have hwhole : CycleHistogram.tally (temporal_events graph width cap) k =
      ((List.range graph.vertex_count).map fun root => ((graph.outgoing_row root).map fun edge =>
        ((event_times graph edge).map
          (start_tally graph width cap root edge.vertex k)).sum).sum).sum := by
    simp only [temporal_events, starts, List.flatMap_assoc, List.flatMap_map,
      CycleHistogram.tally_flatMap, event_times, List.map_map]
    rfl
  have hbundle : bundle.count * start_tally graph width cap root edge.vertex k bundle.timestamp ≤
      weight (start_tally graph width cap root edge.vertex k) counts :=
    List.single_le_sum (fun _ _ => Nat.zero_le _) _ (List.mem_map_of_mem
      (f := fun entry : TimestampCount =>
        entry.count * start_tally graph width cap root edge.vertex k entry.timestamp) hb)
  have hedge : ((event_times graph edge).map (start_tally graph width cap root edge.vertex k)).sum ≤
      ((graph.outgoing_row root).map fun edge => ((event_times graph edge).map
        (start_tally graph width cap root edge.vertex k)).sum).sum :=
    List.single_le_sum (fun _ _ => Nat.zero_le _) _ (List.mem_map_of_mem he)
  rw [hwhole]
  rw [hcounts.weight_eq] at hbundle
  exact hbundle.trans (hedge.trans
    (List.single_le_sum (fun _ _ => Nat.zero_le _) _ (List.mem_map_of_mem hr)))

-- Where the windows and the answers are in range, the numbers of the search fit exactly
-- where no partial path reaches a time in too many ways.
theorem paths_fit_iff (hw : graph.WellFormed) (hno : NoWindowOverflow graph width)
    (hanswer : ∀ k, CycleHistogram.tally (temporal_events graph width cap) k ≤ MAX_COUNT) :
    PathsFit graph width cap ↔ PartialWaysFit graph width cap := by
  refine forall₂_congr fun root hr => forall₂_congr fun edge he => ?_
  have hstart := start_counts_ok_iff graph edge
  have hone : ∀ counts, start_counts graph edge = .ok counts → ∀ bundle ∈ counts,
      (StartFits graph width cap root edge.vertex bundle ↔
        WaysFit graph cap root (bundle.timestamp + width) graph.vertex_count edge.vertex [root]
          (List.replicate ((event_times graph edge).count bundle.timestamp) bundle.timestamp)) := by
    intro counts hcounts bundle hb
    have hbundles := bundles_of_start hcounts
    have hsingle := hbundles.single hb
    have hwindow : bundle.timestamp ≤ MAX_TIMESTAMP - width := by
      obtain ⟨offset, ho, ht⟩ := List.mem_map.mp
        ((hbundles.mem_iff _).mp (List.mem_map_of_mem hb))
      rw [edge_events, List.mem_range'_1] at ho
      have hs : (⟨root, edge, offset⟩ : Start) ∈ starts graph :=
        mem_starts.mpr ⟨List.mem_range.mp hr, he, ho.1, by dsimp only; omega⟩
      exact ht ▸ hno _ hs
    rw [StartFits, and_iff_right hwindow]
    refine bundles_fit_iff hw _ _ _ hsingle ?_ fun k => ?_
    · refine hsingle.fits_iff.mpr fun time => ?_
      rw [List.count_replicate]
      split_ifs
      · exact hstart.mp ⟨counts, hcounts⟩ _
      · exact Nat.zero_le _
    · refine le_trans ?_ (hanswer k)
      rw [weight_cons, weight_nil, Nat.add_zero]
      exact start_tally_le cap hr he k hbundles hb
  constructor
  · rintro ⟨counts, hcounts, hfits⟩ time
    refine ⟨hstart.mp ⟨counts, hcounts⟩ time, ?_⟩
    by_cases ht : time ∈ event_times graph edge
    · obtain ⟨bundle, hb, rfl⟩ := List.mem_map.mp (((bundles_of_start hcounts).mem_iff time).mpr ht)
      exact (hone counts hcounts bundle hb).mp (hfits bundle hb)
    · rw [List.count_eq_zero.mpr ht]
      cases graph.vertex_count with
      | zero => trivial
      | succ fuel =>
          rintro ⟨earlier, hearlier, -⟩
          simp at hearlier
  · intro hways
    obtain ⟨counts, hcounts⟩ := hstart.mpr fun time => (hways time).1
    exact ⟨counts, hcounts, fun bundle hb =>
      (hone counts hcounts bundle hb).mpr (hways bundle.timestamp).2⟩

end Search

end CycleEnum.Sequential
