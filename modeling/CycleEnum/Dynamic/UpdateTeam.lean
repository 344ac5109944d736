import CycleEnum.Dynamic.Theorems
import CycleEnum.Dynamic.UpdateOpenmp
import Mathlib.Algebra.Order.Pi
import Mathlib.Data.Int.ConditionallyCompleteOrder

namespace CycleEnum.Dynamic

open CycleEnum.Enumeration CycleEnum.OpenMP

section Delta

-- Totals that `long long` holds at every length.
def SignedTotals : Set (Nat → Int) := {value | ∀ k, Signed (value k)}

theorem signed_totals_connected : SignedTotals.OrdConnected :=
  ⟨fun _ hlow _ hhigh _ hbetween k => ⟨(hlow k).1.trans (hbetween.1 k),
    (hbetween.2 k).trans_lt (hhigh k).2⟩⟩

theorem signed_totals_zero : (0 : Nat → Int) ∈ SignedTotals := fun _ => ⟨by simp, by simp⟩

variable {max_length : Nat}

-- A loop over the lengths, each of which it takes to its own sum.
theorem lengths_within (hmax : 2 ≤ max_length) {step : List Int → Nat → Except Error (List Int)}
    (value : Nat → Int) (h : ∀ k, 2 ≤ k → k ≤ max_length → ∀ delta : List Int,
      delta.length = max_length + 1 → Signed (delta.getD k 0 + value k) →
        step delta k = .ok (delta.set k (delta.getD k 0 + value k))) :
    AddsWithin SignedTotals (fun delta : List Int => delta.length = max_length + 1) delta_total
      (at_lengths max_length value) fun delta =>
        (List.range' 2 (max_length - 1)).foldlM step delta := by
  intro delta hlength _ hend
  have hsigned : ∀ k, 2 ≤ k → k ≤ max_length → Signed (delta.getD k 0 + value k) := by
    intro k hk hle
    have hk' := hend k
    rwa [Pi.add_apply, at_lengths, if_pos ⟨hk, hle⟩] at hk'
  have hstep : ∀ k ∈ List.range' 2 (max_length - 1), ∀ delta' : List Int,
      delta'.length = delta.length → delta'.getD k 0 = delta.getD k 0 →
        step delta' k = .ok (delta'.set k (delta.getD k 0 + value k)) := by
    intro k hk delta' hsize hsame
    obtain ⟨hk, hle⟩ := (mem_lengths hmax).mp hk
    rw [h k hk hle delta' (hsize.trans hlength) (hsame ▸ hsigned k hk hle), hsame]
  obtain ⟨delta', hrun, hlength', hvalue⟩ := foldlM_set List.nodup_range'
    (fun k old => old + value k) delta (fun k hk => by
      have := (mem_lengths hmax).mp hk
      omega) hstep
  refine ⟨delta', hrun, hlength'.trans hlength, ?_⟩
  funext k
  rw [Pi.add_apply, delta_total, hvalue, at_lengths]
  simp only [mem_lengths hmax]
  split_ifs
  · rfl
  · exact (Int.add_zero _).symm

theorem local_within (hmax : 2 ≤ max_length) {mine : List Int} (hmine : mine.length = max_length + 1) :
    AddsWithin SignedTotals (fun delta : List Int => delta.length = max_length + 1) delta_total
      (at_lengths max_length (delta_total mine)) fun delta =>
        (List.range' 2 (max_length - 1)).foldlM (add_local mine) delta := by
  refine lengths_within hmax _ fun k _ _ delta hlength hsigned => ?_
  rw [add_local, if_neg (by omega), signed_ok (show Signed (delta.getD k 0 + mine.getD k 0) from hsigned)]
  rfl

theorem counts_within (hmax : 2 ≤ max_length) {sign : Int} (hsign : sign = 1 ∨ sign = -1)
    {counts : List Nat} (hcounts : counts.length = max_length + 1)
    (hsmall : ∀ k, 2 ≤ k → k ≤ max_length → counts.getD k 0 < 2 ^ 63) :
    AddsWithin SignedTotals (fun delta : List Int => delta.length = max_length + 1) delta_total
      (at_lengths max_length fun k => sign * to_signed (counts.getD k 0)) fun delta =>
        (List.range' 2 (max_length - 1)).foldlM (add_counts sign counts) delta := by
  refine lengths_within hmax _ fun k hk hle delta hlength hsigned => ?_
  have hchange : Signed (sign * to_signed (counts.getD k 0)) := by
    rw [to_signed_eq (hsmall k hk hle)]
    have := hsmall k hk hle
    unfold Signed
    rcases hsign with rfl | rfl <;> omega
  rw [add_counts, if_neg (by omega), signed_ok hchange]
  change (signed _).bind _ = _
  rw [signed_ok hsigned]
  rfl

end Delta

section Phase

variable {graph : DirectedGraph} {changes : List EdgeChange} {max_length : Nat} {sign : Int}
  (hg : graph.WellFormed) (hc : PhaseChanges graph changes) (hmax : 2 ≤ max_length)
  (hplaces : places max_length = max_length + 1)
  (hsign : sign = 1 ∨ sign = -1)
  (hsmall : ∀ k, 2 ≤ k → k ≤ max_length → phase_number graph changes k < 2 ^ 63)

include hg hc hmax hplaces hsmall

-- No owner counts more than its phase.
theorem owner_counts_eq {round : EdgeChange × Nat} (hr : round ∈ changes.zipIdx) {k : Nat} (hk : 2 ≤ k)
    (hle : k ≤ max_length) :
    (count_all (List.replicate (places max_length) 0)
      (owned_closings graph changes max_length round.1 round.2)).getD k 0 =
        owned_number graph changes round k ∧ owned_number graph changes round k < 2 ^ 63 := by
  have hm := List.fst_mem_of_mem_zipIdx hr
  have hedge := hc.edges round.1 hm
  have hne : round.1.source ≠ round.1.target := fun he => hg.no_loop round.1.source (he ▸ hedge)
  have hpart : owned_number graph changes round k ≤ phase_number graph changes k :=
    List.le_sum_of_mem (List.mem_map_of_mem hr)
  have hlt := hsmall k hk hle
  have hzero : (List.replicate (places max_length) 0).getD k 0 = 0 := by
    rw [List.getD_replicate]
    omega
  refine ⟨?_, by omega⟩
  rw [count_all_getD_mod _ _ (by rw [List.length_replicate]; omega) (by rw [hzero]; omega), hzero,
    Nat.zero_add, owned_closings, if_neg (by omega),
    ← owned_number_eq hg.sorted hg.ids hc.nodup (hc.narrow hg.sorted) hr hedge hne hle, Nat.mod_eq_of_lt]
  omega

theorem owner_amount_eq {round : EdgeChange × Nat} (hr : round ∈ changes.zipIdx) :
    owner_amount graph changes max_length sign round.2 =
      at_lengths max_length fun k => sign * owned_number graph changes round k := by
  funext k
  rw [owner_amount, at_lengths, at_lengths, List.mk_mem_zipIdx_iff_getElem?.mp hr, Option.elim_some]
  split_ifs with hk
  · obtain ⟨heq, hlt⟩ := owner_counts_eq hg hc hmax hplaces hsmall hr hk.1 hk.2
    rw [heq, to_signed_eq hlt]
  · rfl

theorem phase_amount_eq : phase_amount graph changes max_length sign =
    at_lengths max_length fun k => sign * phase_number graph changes k := by
  have hrounds : (changes.zipIdx.map fun round => owner_amount graph changes max_length sign round.2) =
      changes.zipIdx.map fun round =>
        at_lengths max_length fun k => sign * owned_number graph changes round k :=
    List.map_congr_left fun round hr => owner_amount_eq hg hc hmax hplaces hsmall hr
  rw [← phase_amount_rounds, hrounds, sum_at_lengths]
  congr 1
  funext k
  rw [phase_number]
  induction changes.zipIdx with
  | nil => simp
  | cons round rounds ih =>
      rw [List.map_cons, List.sum_cons, Pi.add_apply, ih, List.map_cons, List.sum_cons,
        Int.natCast_add, Int.mul_add]

include hsign

theorem owner_amounts_one_way :
    OneWay ((List.range changes.length).map (owner_amount graph changes max_length sign)) := by
  have hamount : ∀ amount ∈ (List.range changes.length).map
      (owner_amount graph changes max_length sign), ∃ number : Nat → Nat,
        amount = at_lengths max_length fun k => sign * number k := by
    intro amount ha
    obtain ⟨owner, ho, rfl⟩ := List.mem_map.mp ha
    have ho : owner < changes.length := List.mem_range.mp ho
    have hget : changes[owner]? = some changes[owner] := List.getElem?_eq_getElem ho
    have hround : (changes[owner], owner) ∈ changes.zipIdx := List.mk_mem_zipIdx_iff_getElem?.mpr hget
    have heq := @owner_amount_eq graph changes max_length sign hg hc hmax hplaces hsmall _ hround
    exact ⟨owned_number graph changes (changes[owner], owner), heq⟩
  rcases hsign with rfl | rfl
  · refine Or.inl fun amount ha k => ?_
    obtain ⟨number, rfl⟩ := hamount amount ha
    change 0 ≤ at_lengths max_length _ k
    unfold at_lengths
    dsimp only
    split_ifs <;> omega
  · refine Or.inr fun amount ha k => ?_
    obtain ⟨number, rfl⟩ := hamount amount ha
    change at_lengths max_length _ k ≤ 0
    unfold at_lengths
    dsimp only
    split_ifs <;> omega

theorem owner_within {owner : Nat} (ho : owner < changes.length) :
    AddsWithin SignedTotals (Ready max_length) (fun mine => delta_total mine.1)
      (owner_amount graph changes max_length sign owner)
      (count_owner graph changes max_length sign owner) := by
  rintro ⟨delta, buffer⟩ ⟨hlength, hclear⟩ hstart hend
  have hget : changes[owner]? = some changes[owner] := List.getElem?_eq_getElem ho
  have hm : changes[owner] ∈ changes := List.getElem_mem ho
  have hedge := hc.edges _ hm
  obtain ⟨buffer', hcount, hclear'⟩ := count_cycles_through_edge_ok changes changes[owner] owner
    max_length hg.sorted.read_bounded (hg.source_lt hedge) (hg.bounded _ _ hedge)
    (List.replicate (places max_length) 0) hclear
  rw [owner_amount, hget] at hend ⊢
  have hcounts : ∀ k, 2 ≤ k → k ≤ max_length → (count_all (List.replicate (places max_length) 0)
      (owned_closings graph changes max_length changes[owner] owner)).getD k 0 < 2 ^ 63 := by
    intro k hk hle
    obtain ⟨heq, hlt⟩ := owner_counts_eq hg hc hmax hplaces hsmall
      (List.mk_mem_zipIdx_iff_getElem?.mpr hget) hk hle
    exact heq ▸ hlt
  obtain ⟨delta', hadd, hlength', htotal⟩ :=
    counts_within hmax hsign (by rw [length_count_all, List.length_replicate, hplaces]) hcounts
      delta (hlength.trans hplaces) hstart hend
  refine ⟨(delta', buffer'), ?_, ⟨hlength'.trans hplaces.symm, hclear'⟩, htotal⟩
  rw [count_owner, hget]
  dsimp only
  rw [add_change, hcount]
  change Except.bind (List.foldlM (add_counts sign _) delta _) _ = _
  dsimp only at hadd
  rw [hadd]
  rfl

-- With small counts a team never leaves the range of `long long`, on any schedule.
theorem accumulate_phase_parallel_returns {threads : Nat} {run : TeamRun}
    (hs : IsSchedule threads changes.length run.schedule) {delta : List Int}
    (hlength : delta.length = max_length + 1) {buffers : Nat → VisitedBuffer}
    (hclear : ∀ thread, (buffers thread).visited = Flags.none)
    (hstart : delta_total delta ∈ SignedTotals)
    (hend : delta_total delta + phase_amount graph changes max_length sign ∈ SignedTotals) :
    ∃ delta' buffers', accumulate_phase_parallel graph changes max_length sign threads run delta
        buffers = .returned (delta', buffers') := by
  unfold accumulate_phase_parallel
  by_cases hempty : changes.isEmpty
  · rw [if_pos hempty]
    exact ⟨delta, buffers, rfl⟩
  rw [if_neg hempty]
  have hway := owner_amounts_one_way hg hc hmax hplaces hsign hsmall
  have hphase : phase_amount graph changes max_length sign ∈ SignedTotals := fun k => by
    rw [phase_amount_eq hg hc hmax hplaces hsmall, at_lengths]
    split_ifs with hk
    · have := hsmall k hk.1 hk.2
      unfold Signed
      rcases hsign with rfl | rfl <;> omega
    · exact ⟨by simp, by simp⟩
  have hready : ∀ thread, Ready max_length
      (List.replicate (places max_length) 0, buffers (run.thread_of thread)) :=
    fun thread => ⟨List.length_replicate, hclear _⟩
  obtain ⟨locals, hrun, hlocals⟩ := AddsWithin.run_schedule signed_totals_connected hs hway
    (fun owner ho => owner_within hg hc hmax hplaces hsign hsmall ho) hready
    (fun thread => delta_total_zero _) signed_totals_zero hphase
  have hmine : ∀ thread, at_lengths max_length (delta_total (locals thread).1) =
      ((items_of run.schedule thread).map (owner_amount graph changes max_length sign)).sum := by
    intro thread
    rw [(hlocals thread).2, ← sum_at_lengths]
    congr 1
    exact List.map_congr_left fun owner _ => at_lengths_at_lengths _ _
  have hsum : ((List.range threads).map fun thread =>
      at_lengths max_length (delta_total (locals thread).1)).sum =
        phase_amount graph changes max_length sign := by
    simp only [hmine]
    exact hs.sum_eq _
  have hlocals_way : OneWay ((List.range threads).map fun thread =>
      at_lengths max_length (delta_total (locals thread).1)) := by
    simp only [hmine]
    have hpart : ∀ thread, ∀ amount ∈ (items_of run.schedule thread).map
        (owner_amount graph changes max_length sign), amount ∈ (List.range changes.length).map
          (owner_amount graph changes max_length sign) := by
      intro thread amount ha
      obtain ⟨owner, ho, rfl⟩ := List.mem_map.mp ha
      exact List.mem_map_of_mem (List.mem_range.mpr (hs.mem_items ho))
    refine hway.imp (fun hway total ht => ?_) fun hway total ht => ?_
    · obtain ⟨thread, -, rfl⟩ := List.mem_map.mp ht
      exact List.sum_nonneg fun amount ha => hway amount (hpart thread amount ha)
    · obtain ⟨thread, -, rfl⟩ := List.mem_map.mp ht
      exact sum_le_zero fun amount ha => hway amount (hpart thread amount ha)
  have hmerge := AddsWithin.foldlM signed_totals_connected hlocals_way
    fun thread _ => local_within hmax ((hlocals thread).1.1.trans hplaces)
  obtain ⟨delta', hadd, -, -⟩ := hmerge delta hlength hstart (by rwa [hsum])
  refine ⟨delta', keep_buffers threads run.thread_of locals buffers, ?_⟩
  rw [hrun]
  change (Outcome.serial _).bind _ = _
  dsimp only at hadd
  rw [hadd]
  rfl

end Phase

section Update

variable {graph : DirectedGraph} {batch : EdgeBatch} {max_cycle_length : Nat}
  {histogram : CycleHistogram}

-- A phase of a team that starts with clear buffers.
theorem team_phase {changes : List EdgeChange} {sign : Int} (hg : graph.WellFormed)
    (hc : PhaseChanges graph changes)
    (hvertices : ∀ change ∈ changes,
      change.source < graph.vertex_count ∧ change.target < graph.vertex_count)
    (hmax : 2 ≤ max_cycle_length) (hplaces : places max_cycle_length = max_cycle_length + 1)
    (hsign : sign = 1 ∨ sign = -1)
    (hsmall : ∀ k, 2 ≤ k → k ≤ max_cycle_length → phase_number graph changes k < 2 ^ 63)
    {threads : Nat} {run : TeamRun} (hs : IsSchedule threads changes.length run.schedule)
    {delta : List Int} (hlength : delta.length = max_cycle_length + 1)
    {buffers : Nat → VisitedBuffer} (hclear : ∀ thread, (buffers thread).visited = Flags.none)
    (hstart : delta_total delta ∈ SignedTotals)
    (hend : delta_total delta + phase_amount graph changes max_cycle_length sign ∈ SignedTotals) :
    ∃ delta' buffers', accumulate_phase_parallel graph changes max_cycle_length sign threads run delta
        buffers = .returned (delta', buffers') ∧
      delta'.length = max_cycle_length + 1 ∧ (∀ thread, (buffers' thread).visited = Flags.none) ∧
      delta_total delta' = delta_total delta + phase_amount graph changes max_cycle_length sign := by
  obtain ⟨delta', buffers', hreturned⟩ := accumulate_phase_parallel_returns hg hc hmax hplaces
    hsign hsmall hs hlength hclear hstart hend
  rcases accumulate_phase_parallel_adds sign hg.sorted.read_bounded hvertices hs
      (hlength.trans hplaces.symm) hclear with hundefined | ⟨delta₁, buffers₁, hrun, hlength₁, hadds⟩
  · rw [hreturned] at hundefined
    cases hundefined
  · exact ⟨delta₁, buffers₁, hrun, hlength₁.trans hplaces, hadds⟩

variable (hg : graph.WellFormed) (hb : batch.Fits graph) (hmax : 2 ≤ max_cycle_length)
  (hfew : max_cycle_length + 1 ≤ MAX_PLACES)
  (h : Countable graph max_cycle_length) (h' : Countable (apply_batch graph batch) max_cycle_length)

include hg hb hmax hfew h h'

-- The delta between two graphs fits, and so does what the deletions alone come to.
theorem update_amounts_signed :
    phase_amount graph (normalize batch).deletions max_cycle_length (-1) ∈ SignedTotals ∧
      update_amount graph batch max_cycle_length ∈ SignedTotals := by
  have hg' := apply_batch_well_formed hg (normalize_fits hb)
  have hnumbers := fun k (hk : 2 ≤ k) hle => update_numbers hg hb h h' hk hle
  have hdeleted := @phase_amount_eq _ _ max_cycle_length (-1) hg (deletions_phase hb) hmax
    (places_eq hfew)
    fun k hk hle => by
      obtain ⟨-, hdel, -, hlt, -⟩ := hnumbers k hk hle
      omega
  have hinserted := @phase_amount_eq _ _ max_cycle_length 1 hg' (insertions_phase hg hb) hmax
    (places_eq hfew)
    fun k hk hle => by
      obtain ⟨-, -, hins, -, hlt⟩ := hnumbers k hk hle
      omega
  refine ⟨fun k => ?_, fun k => ?_⟩
  · rw [hdeleted, at_lengths]
    split_ifs with hk
    · obtain ⟨-, hdel, -, hlt, -⟩ := hnumbers k hk.1 hk.2
      unfold Signed
      omega
    · exact ⟨by simp, by simp⟩
  · rw [update_amount, Pi.add_apply, hdeleted, hinserted, at_lengths, at_lengths]
    split_ifs with hk
    · obtain ⟨heq, hdel, hins, hlt, hlt'⟩ := hnumbers k hk.1 hk.2
      unfold Signed
      omega
    · exact ⟨by simp, by simp⟩

-- A team comes to the delta of the update, whatever its schedules are.
theorem team_delta {threads : Nat} {deletion_run insertion_run : TeamRun}
    {buffers : Nat → VisitedBuffer}
    (hdeletions : IsSchedule threads (normalize batch).deletions.length deletion_run.schedule)
    (hinsertions : IsSchedule threads (normalize batch).insertions.length insertion_run.schedule)
    (hclear : ∀ thread, (buffers thread).visited = Flags.none) :
    ∃ delta₁ buffers₁ delta₂ buffers₂,
      accumulate_phase_parallel graph (normalize batch).deletions max_cycle_length (-1) threads
          deletion_run (List.replicate (max_cycle_length + 1) 0) buffers =
        .returned (delta₁, buffers₁) ∧
      accumulate_phase_parallel (apply_batch graph (normalize batch)) (normalize batch).insertions
          max_cycle_length 1 threads insertion_run delta₁ buffers₁ = .returned (delta₂, buffers₂) ∧
      IsDelta graph batch max_cycle_length delta₂ ∧
      ∀ thread, (buffers₂ thread).visited = Flags.none := by
  have hg' := apply_batch_well_formed hg (normalize_fits hb)
  have hchanges := normalized_vertices hb.vertices
  have hnumbers := fun k (hk : 2 ≤ k) hle => update_numbers hg hb h h' hk hle
  obtain ⟨hsigned, hsigned'⟩ := update_amounts_signed hg hb hmax hfew h h'
  have hzero := delta_total_zero (max_cycle_length + 1)
  obtain ⟨delta₁, buffers₁, hrun₁, hlength₁, hclear₁, htotal₁⟩ := team_phase hg (deletions_phase hb)
    (fun change hm => hchanges change (List.mem_append_left _ hm)) hmax (places_eq hfew)
    (Or.inr rfl)
    (fun k hk hle => by
      obtain ⟨-, hdel, -, hlt, -⟩ := hnumbers k hk hle
      omega) hdeletions List.length_replicate hclear (hzero ▸ signed_totals_zero) (by
        rw [hzero, zero_add]
        exact hsigned)
  rw [hzero, zero_add] at htotal₁
  obtain ⟨delta₂, buffers₂, hrun₂, hlength₂, hclear₂, htotal₂⟩ := team_phase hg'
    (insertions_phase hg hb) (fun change hm => hchanges change (List.mem_append_right _ hm)) hmax
    (places_eq hfew) (Or.inl rfl) (fun k hk hle => by
      obtain ⟨-, -, hins, -, hlt⟩ := hnumbers k hk hle
      omega) hinsertions hlength₁ hclear₁ (htotal₁ ▸ hsigned) (by
        rw [htotal₁]
        exact hsigned')
  refine ⟨delta₁, buffers₁, delta₂, buffers₂, hrun₁, hrun₂, ⟨hlength₂.trans (places_eq hfew).symm, ?_⟩,
    hclear₂⟩
  rw [htotal₂, htotal₁, update_amount]

-- On any team and any schedules the update returns the counts of the new graph.
theorem update_static_histogram_team_returns (hcounted : Counted graph max_cycle_length histogram)
    {available : Bool} {requested_threads : Int} (hthreads : 1 ≤ requested_threads)
    (havailable : available = true ∨ requested_threads = 1) {deletion_run insertion_run : TeamRun}
    (hschedules : 1 < requested_threads →
      IsSchedule requested_threads.toNat (normalize batch).deletions.length deletion_run.schedule ∧
      IsSchedule requested_threads.toNat (normalize batch).insertions.length insertion_run.schedule)
    {buffers : Nat → VisitedBuffer} (hclear : ∀ thread, (buffers thread).visited = Flags.none) :
    ∃ updated buffers', update_static_histogram_openmp graph histogram batch max_cycle_length
        available requested_threads deletion_run insertion_run buffers =
          .returned (updated, buffers') ∧
      Counted (apply_batch graph batch) max_cycle_length updated ∧
      ∀ thread, (buffers' thread).visited = Flags.none := by
  have hlong : ¬max_cycle_length < 2 := Nat.not_lt.mpr hmax
  obtain ⟨updated, buffer', hseq, hupdated, hclear'⟩ :=
    update_static_histogram_eq hg hmax hfew hb h h' hcounted (hclear 0)
  by_cases hone : requested_threads = 1
  · subst hone
    refine ⟨updated, Function.update buffers 0 buffer', ?_, hupdated, fun thread => ?_⟩
    · rw [update_static_histogram_openmp_one hlong, hseq]
      rfl
    · exact update_clear hclear hclear' thread
  obtain rfl : available = true := havailable.resolve_right hone
  obtain ⟨hdeletions, hinsertions⟩ := hschedules (by omega)
  obtain ⟨delta₁, buffers₁, delta₂, buffers₂, hrun₁, hrun₂, hdelta, hclear₂⟩ :=
    team_delta hg hb hmax hfew h h' hdeletions hinsertions hclear
  refine ⟨updated, buffers₂, ?_, hupdated, hclear₂⟩
  rw [update_static_histogram_openmp_of_phases hlong (by omega) (make_delta_eq hfew) hrun₁ hrun₂]
  rcases update_static_histogram_cases hg.sorted.read_bounded hg.bounded hb.vertices hlong
      ((places_eq hfew).le.trans hfew) (hclear 0) with hundefined | ⟨delta, buffer₀, hdelta', -, hcases⟩
  · rw [hseq] at hundefined
    cases hundefined
  · obtain rfl := hdelta'.unique hdelta
    rw [hseq] at hcases
    cases happly : apply_histogram_delta histogram delta max_cycle_length with
    | error error =>
        rw [happly] at hcases
        cases hcases
    | ok last =>
        rw [happly] at hcases
        obtain ⟨rfl, -⟩ := Prod.mk.inj (Except.ok.inj hcases)
        rfl

end Update

end CycleEnum.Dynamic
