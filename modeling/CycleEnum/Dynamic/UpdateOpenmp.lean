import CycleEnum.Dynamic.UpdateSequential
import CycleEnum.OpenMP.Accumulate
import CycleEnum.OpenMP.Outcome

namespace CycleEnum.Dynamic

open CycleEnum.Enumeration CycleEnum.OpenMP

-- What one turn of the loop over the changes does to a delta and to the buffer of the
-- thread. The counts are zero at its start.
def add_change (graph : DirectedGraph) (changes : List EdgeChange) (max_length : Nat) (sign : Int)
    (owner : Nat) (change : EdgeChange) (mine : List Int × VisitedBuffer) :
    Except Error (List Int × VisitedBuffer) := do
  let (counts, buffer) ← count_cycles_through_edge graph change.source change.target owner
    (ChangedEdgeIndex.of_changes changes) max_length (List.replicate (places max_length) 0) mine.2
  let delta ← (List.range' 2 (max_length - 1)).foldlM (add_counts sign counts) mine.1
  return (delta, buffer)

def count_owner (graph : DirectedGraph) (changes : List EdgeChange) (max_length : Nat) (sign : Int)
    (owner : Nat) (mine : List Int × VisitedBuffer) : Except Error (List Int × VisitedBuffer) :=
  match changes[owner]? with
  | none => throw .undefined
  | some change => add_change graph changes max_length sign owner change mine

-- `delta[length] += partial[length]`
def add_local (mine : List Int) (delta : List Int) (length : Nat) : Except Error (List Int) := do
  if mine.length ≤ length ∨ delta.length ≤ length then throw .undefined
  return delta.set length (← signed (delta.getD length 0 + mine.getD length 0))

-- A parallel region: who takes which owner, and the thread of the program that has
-- each number in the team.
structure TeamRun where
  schedule : List (Nat × Nat)
  thread_of : Nat → Nat

-- Every thread of a team keeps its buffer when the region ends.
def keep_buffers (threads : Nat) (thread_of : Nat → Nat)
    (locals : Nat → List Int × VisitedBuffer) (buffers : Nat → VisitedBuffer) :
    Nat → VisitedBuffer :=
  (List.range threads).foldl
    (fun buffers thread => Function.update buffers (thread_of thread) (locals thread).2) buffers

-- An exception would end the program; undefined behaviour stays what it is.
def region {α : Type} (result : Except Error α) : Outcome α :=
  match result with
  | .ok value => .returned value
  | .error .undefined => .threw .undefined
  | .error _ => .terminated

def accumulate_phase_parallel (graph : DirectedGraph) (changes : List EdgeChange)
    (max_length : Nat) (sign : Int) (threads : Nat) (run : TeamRun) (delta : List Int)
    (buffers : Nat → VisitedBuffer) : Outcome (List Int × (Nat → VisitedBuffer)) :=
  if changes.isEmpty then return (delta, buffers)
  else do
    let locals ← region (run_schedule (count_owner graph changes max_length sign) run.schedule
      fun thread => (List.replicate (places max_length) 0, buffers (run.thread_of thread)))
    let delta ← Outcome.serial ((List.range threads).foldlM (fun delta thread =>
      (List.range' 2 (max_length - 1)).foldlM (add_local (locals thread).1) delta) delta)
    return (delta, keep_buffers threads run.thread_of locals buffers)

-- The caller is the thread 0 of the program.
def update_static_histogram_openmp (initial_graph : DirectedGraph)
    (initial_histogram : CycleHistogram) (batch : EdgeBatch) (max_cycle_length : Nat)
    (available : Bool) (requested_threads : Int) (deletion_run insertion_run : TeamRun)
    (buffers : Nat → VisitedBuffer) : Outcome (CycleHistogram × (Nat → VisitedBuffer)) :=
  if max_cycle_length < 2 then
    .threw (.invalid_argument "max_cycle_length must be at least 2")
  else do
    let threads ← resolve_thread_count available requested_threads
    if available && threads > 1 then
      let normalized := normalize batch
      let delta ← Outcome.serial (make_delta max_cycle_length)
      let (delta, buffers) ← accumulate_phase_parallel initial_graph normalized.deletions
        max_cycle_length (-1) threads deletion_run delta buffers
      let final_graph := apply_batch initial_graph normalized
      let (delta, buffers) ← accumulate_phase_parallel final_graph normalized.insertions
        max_cycle_length 1 threads insertion_run delta buffers
      let histogram ← Outcome.serial
        (apply_histogram_delta initial_histogram delta max_cycle_length)
      return (histogram, buffers)
    else
      Outcome.serial ((update_static_histogram initial_graph initial_histogram batch
        max_cycle_length (buffers 0)).map fun result =>
          (result.1, Function.update buffers 0 result.2))

section Delta

def delta_total (delta : List Int) (k : Nat) : Int := delta.getD k 0

theorem delta_ext {delta delta' : List Int} (hlength : delta.length = delta'.length)
    (h : delta_total delta = delta_total delta') : delta = delta' := by
  refine List.ext_getElem hlength fun k h₁ h₂ => ?_
  have := congrFun h k
  rwa [delta_total, delta_total, List.getD_eq_getElem _ _ h₁, List.getD_eq_getElem _ _ h₂] at this

theorem delta_total_zero (n : Nat) : delta_total (List.replicate n 0) = 0 := by
  funext k
  simp [delta_total]

theorem delta_total_set {delta : List Int} {k : Nat} (hk : k < delta.length) (value : Int) :
    delta_total (delta.set k (delta.getD k 0 + value)) =
      delta_total delta + Pi.single k value := by
  funext j
  rw [Pi.add_apply, delta_total, delta_total]
  by_cases hj : j = k
  · subst hj
    rw [Pi.single_eq_same, List.getD_eq_getElem?_getD, List.getElem?_set_self hk]
    rfl
  · rw [Pi.single_eq_of_ne hj, List.getD_eq_getElem?_getD, List.getElem?_set_ne (Ne.symm hj),
      List.getD_eq_getElem?_getD, Int.add_zero]

theorem signed_cases (value : Int) : signed value = .error .undefined ∨ signed value = .ok value := by
  unfold signed
  split_ifs
  · exact Or.inr rfl
  · exact Or.inl rfl

-- The lengths that an update writes to.
def at_lengths (max_length : Nat) (value : Nat → Int) (k : Nat) : Int :=
  if 2 ≤ k ∧ k ≤ max_length then value k else 0

theorem at_lengths_at_lengths (max_length : Nat) (value : Nat → Int) :
    at_lengths max_length (at_lengths max_length value) = at_lengths max_length value := by
  funext k
  unfold at_lengths
  split_ifs <;> rfl

theorem sum_at_lengths {α : Type} (max_length : Nat) (values : α → Nat → Int) (items : List α) :
    (items.map fun item => at_lengths max_length (values item)).sum =
      at_lengths max_length (items.map values).sum := by
  induction items with
  | nil =>
      funext k
      simp [at_lengths]
  | cons item items ih =>
      rw [List.map_cons, List.map_cons, List.sum_cons, List.sum_cons, ih]
      funext k
      simp only [at_lengths, Pi.add_apply]
      split_ifs <;> rfl

theorem sum_single_lengths (max_length : Nat) (value : Nat → Int) :
    ((List.range' 2 (max_length - 1)).map fun k => (Pi.single k (value k) : Nat → Int)).sum =
      at_lengths max_length value := by
  have hsum : ∀ lengths : List Nat, lengths.Nodup → ∀ j,
      (lengths.map fun k => (Pi.single k (value k) : Nat → Int)).sum j =
        if j ∈ lengths then value j else 0 := by
    intro lengths hn j
    induction lengths with
    | nil => simp
    | cons k lengths ih =>
        obtain ⟨hnew, hn⟩ := List.nodup_cons.mp hn
        rw [List.map_cons, List.sum_cons, Pi.add_apply, ih hn]
        by_cases hj : j = k
        · subst hj
          simp [hnew]
        · simp [hj]
  funext j
  rw [hsum _ List.nodup_range', at_lengths]
  congr 1
  rw [List.mem_range'_1]
  apply propext
  omega

-- A loop over the lengths that adds to each place of a delta.
theorem adds_lengths {max_length size : Nat} {step : List Int → Nat → Except Error (List Int)}
    (value : Nat → Int) (h : ∀ k delta, step delta k = .error .undefined ∨
      k < delta.length ∧ step delta k = .ok (delta.set k (delta.getD k 0 + value k))) :
    Adds (fun delta : List Int => delta.length = size) delta_total
      (at_lengths max_length value) fun delta =>
        (List.range' 2 (max_length - 1)).foldlM step delta := by
  rw [← sum_single_lengths]
  refine Adds.foldlM fun k _ delta hlength => ?_
  rcases h k delta with hundefined | ⟨hk, hok⟩
  · exact Or.inl hundefined
  · exact Or.inr ⟨_, hok, by rw [List.length_set]; exact hlength, delta_total_set hk _⟩

theorem adds_counts (max_length size : Nat) (sign : Int) (counts : List Nat) :
    Adds (fun delta : List Int => delta.length = size) delta_total
      (at_lengths max_length fun k => sign * to_signed (counts.getD k 0)) fun delta =>
        (List.range' 2 (max_length - 1)).foldlM (add_counts sign counts) delta := by
  refine adds_lengths _ fun k delta => ?_
  unfold add_counts
  by_cases hbeyond : counts.length ≤ k ∨ delta.length ≤ k
  · rw [if_pos hbeyond]
    exact Or.inl rfl
  rw [if_neg hbeyond]
  rcases signed_cases (sign * to_signed (counts.getD k 0)) with hundefined | hchange
  · rw [hundefined]
    exact Or.inl rfl
  · rw [hchange]
    rcases signed_cases (delta.getD k 0 + sign * to_signed (counts.getD k 0)) with hundefined | hsum
    · refine Or.inl ?_
      change (signed _).bind _ = _
      rw [hundefined]
      rfl
    · refine Or.inr ⟨by omega, ?_⟩
      change (signed _).bind _ = _
      rw [hsum]
      rfl

theorem adds_local (max_length size : Nat) (mine : List Int) :
    Adds (fun delta : List Int => delta.length = size) delta_total
      (at_lengths max_length (delta_total mine)) fun delta =>
        (List.range' 2 (max_length - 1)).foldlM (add_local mine) delta := by
  refine adds_lengths _ fun k delta => ?_
  unfold add_local
  by_cases hbeyond : mine.length ≤ k ∨ delta.length ≤ k
  · rw [if_pos hbeyond]
    exact Or.inl rfl
  rw [if_neg hbeyond]
  rcases signed_cases (delta.getD k 0 + mine.getD k 0) with hundefined | hsum
  · rw [hundefined]
    exact Or.inl rfl
  · rw [hsum]
    exact Or.inr ⟨by omega, rfl⟩

end Delta

section Phase

variable {graph : DirectedGraph} {changes : List EdgeChange} {max_length : Nat} {sign : Int}

-- A delta of the right size and a buffer that is clear.
def Ready (max_length : Nat) (mine : List Int × VisitedBuffer) : Prop :=
  mine.1.length = places max_length ∧ mine.2.visited = Flags.none

-- What an owner adds to a delta, whatever thread counts it.
def owner_amount (graph : DirectedGraph) (changes : List EdgeChange) (max_length : Nat)
    (sign : Int) (owner : Nat) : Nat → Int :=
  at_lengths max_length fun k => sign * to_signed ((count_all (List.replicate (places max_length) 0)
    (changes[owner]?.elim [] fun change =>
      owned_closings graph changes max_length change owner)).getD k 0)

theorem adds_change (hbounded : ∀ a, ∀ next ∈ graph.read_row a, next < graph.vertex_count)
    (hvertices : ∀ change ∈ changes,
      change.source < graph.vertex_count ∧ change.target < graph.vertex_count) {owner : Nat}
    {change : EdgeChange} (hget : changes[owner]? = some change) :
    Adds (Ready max_length) (fun mine => delta_total mine.1)
      (owner_amount graph changes max_length sign owner)
      (add_change graph changes max_length sign owner change) := by
  rintro ⟨delta, buffer⟩ ⟨hlength, hclear⟩
  obtain ⟨hs, ht⟩ := hvertices change (List.mem_of_getElem? hget)
  obtain ⟨buffer', hcount, hclear'⟩ := count_cycles_through_edge_ok changes change owner
    max_length hbounded hs ht (List.replicate (places max_length) 0) hclear
  rw [add_change, hcount, owner_amount, hget]
  rcases adds_counts max_length _ sign (count_all (List.replicate (places max_length) 0)
      (owned_closings graph changes max_length change owner)) delta hlength with
    hundefined | ⟨delta', hadd, hlength', htotal⟩
  · dsimp only at hundefined
    refine Or.inl ?_
    change Except.bind (List.foldlM (add_counts sign _) delta _) _ = _
    rw [hundefined]
    rfl
  · dsimp only at hadd
    refine Or.inr ⟨(delta', buffer'), ?_, ⟨hlength', hclear'⟩, htotal⟩
    change Except.bind (List.foldlM (add_counts sign _) delta _) _ = _
    rw [hadd]
    rfl

theorem adds_owner (max_length : Nat) (sign : Int)
    (hbounded : ∀ a, ∀ next ∈ graph.read_row a, next < graph.vertex_count)
    (hvertices : ∀ change ∈ changes,
      change.source < graph.vertex_count ∧ change.target < graph.vertex_count) {owner : Nat}
    (ho : owner < changes.length) :
    Adds (Ready max_length) (fun mine => delta_total mine.1)
      (owner_amount graph changes max_length sign owner)
      (count_owner graph changes max_length sign owner) := by
  have hget : changes[owner]? = some changes[owner] := List.getElem?_eq_getElem ho
  intro mine hready
  rw [count_owner, hget]
  exact adds_change hbounded hvertices hget mine hready

-- What a phase adds to a delta.
def phase_amount (graph : DirectedGraph) (changes : List EdgeChange) (max_length : Nat)
    (sign : Int) : Nat → Int :=
  ((List.range changes.length).map (owner_amount graph changes max_length sign)).sum

theorem phase_amount_rounds (graph : DirectedGraph) (changes : List EdgeChange) (max_length : Nat)
    (sign : Int) : (changes.zipIdx.map fun round =>
      owner_amount graph changes max_length sign round.2).sum =
        phase_amount graph changes max_length sign := by
  rw [phase_amount, List.range_eq_range', ← List.zipIdx_map_snd 0 changes, List.map_map]
  rfl

theorem at_lengths_phase_amount (graph : DirectedGraph) (changes : List EdgeChange)
    (max_length : Nat) (sign : Int) :
    at_lengths max_length (phase_amount graph changes max_length sign) =
      phase_amount graph changes max_length sign := by
  have hown : ∀ owner, at_lengths max_length (owner_amount graph changes max_length sign owner) =
      owner_amount graph changes max_length sign owner := fun owner => at_lengths_at_lengths _ _
  rw [phase_amount, ← sum_at_lengths]
  simp only [hown]

theorem adds_phase (max_length : Nat) (sign : Int)
    (hbounded : ∀ a, ∀ next ∈ graph.read_row a, next < graph.vertex_count)
    (hvertices : ∀ change ∈ changes,
      change.source < graph.vertex_count ∧ change.target < graph.vertex_count) :
    Adds (Ready max_length) (fun mine => delta_total mine.1)
      (phase_amount graph changes max_length sign)
      fun mine => accumulate_phase graph changes max_length sign mine.1 mine.2 := by
  rw [← phase_amount_rounds]
  have hrounds : ∀ round ∈ changes.zipIdx, Adds (Ready max_length) (fun mine => delta_total mine.1)
      (owner_amount graph changes max_length sign round.2)
      (add_change graph changes max_length sign round.2 round.1) := fun round hr =>
    adds_change hbounded hvertices (List.mk_mem_zipIdx_iff_getElem?.mp hr)
  exact Adds.foldlM hrounds

theorem accumulate_phase_adds (sign : Int)
    (hbounded : ∀ a, ∀ next ∈ graph.read_row a, next < graph.vertex_count)
    (hvertices : ∀ change ∈ changes,
      change.source < graph.vertex_count ∧ change.target < graph.vertex_count)
    {delta : List Int} (hlength : delta.length = places max_length) {buffer : VisitedBuffer}
    (hclear : buffer.visited = Flags.none) :
    accumulate_phase graph changes max_length sign delta buffer = .error .undefined ∨
      ∃ delta' buffer', accumulate_phase graph changes max_length sign delta buffer =
          .ok (delta', buffer') ∧
        delta'.length = places max_length ∧ buffer'.visited = Flags.none ∧
        delta_total delta' = delta_total delta + phase_amount graph changes max_length sign := by
  rcases adds_phase max_length sign hbounded hvertices (delta, buffer) ⟨hlength, hclear⟩ with
    hundefined | ⟨⟨delta', buffer'⟩, hrun, hready, htotal⟩
  · exact Or.inl hundefined
  · exact Or.inr ⟨delta', buffer', hrun, hready.1, hready.2, htotal⟩

theorem keep_buffers_clear {threads : Nat} {thread_of : Nat → Nat}
    {locals : Nat → List Int × VisitedBuffer} {buffers : Nat → VisitedBuffer}
    (hlocals : ∀ thread, (locals thread).2.visited = Flags.none)
    (hclear : ∀ thread, (buffers thread).visited = Flags.none) (thread : Nat) :
    (keep_buffers threads thread_of locals buffers thread).visited = Flags.none := by
  unfold keep_buffers
  induction List.range threads generalizing buffers with
  | nil => exact hclear thread
  | cons own others ih =>
      rw [List.foldl_cons]
      refine ih fun other => ?_
      by_cases ho : other = thread_of own
      · rw [ho, Function.update_self]
        exact hlocals own
      · rw [Function.update_of_ne ho]
        exact hclear other

-- A team adds to a delta what one thread adds, on every schedule.
theorem accumulate_phase_parallel_adds (sign : Int)
    (hbounded : ∀ a, ∀ next ∈ graph.read_row a, next < graph.vertex_count)
    (hvertices : ∀ change ∈ changes,
      change.source < graph.vertex_count ∧ change.target < graph.vertex_count)
    {threads : Nat} {run : TeamRun} (hs : IsSchedule threads changes.length run.schedule)
    {delta : List Int} (hlength : delta.length = places max_length) {buffers : Nat → VisitedBuffer}
    (hclear : ∀ thread, (buffers thread).visited = Flags.none) :
    accumulate_phase_parallel graph changes max_length sign threads run delta buffers =
        .threw .undefined ∨
      ∃ delta' buffers', accumulate_phase_parallel graph changes max_length sign threads run delta
          buffers = .returned (delta', buffers') ∧
        delta'.length = places max_length ∧ (∀ thread, (buffers' thread).visited = Flags.none) ∧
        delta_total delta' = delta_total delta + phase_amount graph changes max_length sign := by
  unfold accumulate_phase_parallel
  by_cases hempty : changes.isEmpty
  · rw [if_pos hempty]
    refine Or.inr ⟨delta, buffers, rfl, hlength, hclear, ?_⟩
    rw [List.isEmpty_iff] at hempty
    subst hempty
    simp [phase_amount]
  rw [if_neg hempty]
  have hstart : ∀ thread, Ready max_length
      (List.replicate (places max_length) 0, buffers (run.thread_of thread)) :=
    fun thread => ⟨List.length_replicate, hclear _⟩
  rcases Adds.run_schedule hs (fun owner ho => adds_owner max_length sign hbounded hvertices ho)
      hstart (fun thread => delta_total_zero _) with hundefined | ⟨locals, hrun, hready, hsum⟩
  · rw [hundefined]
    exact Or.inl rfl
  rw [hrun]
  change (Outcome.serial _).bind _ = _ ∨ _
  have hmerge := Adds.foldlM fun thread (_ : thread ∈ List.range threads) =>
    adds_local max_length (places max_length) (locals thread).1
  rcases hmerge delta hlength with hundefined | ⟨delta', hadd, hlength', htotal⟩
  · dsimp only at hundefined
    rw [hundefined]
    exact Or.inl rfl
  · dsimp only at hadd
    refine Or.inr ⟨delta', keep_buffers threads run.thread_of locals buffers, ?_, hlength',
      keep_buffers_clear (fun thread => (hready thread).2) hclear, ?_⟩
    · change (Outcome.serial _).bind _ = _
      rw [hadd]
      rfl
    · rw [htotal, sum_at_lengths, hsum]
      exact congrArg _ (at_lengths_phase_amount graph changes max_length sign)

end Phase

section Update

variable {graph : DirectedGraph} {histogram : CycleHistogram} {batch : EdgeBatch}
  {max_cycle_length : Nat}

theorem apply_batch_bounded (batch : EdgeBatch)
    (hbounded : ∀ a, ∀ next ∈ graph.row a, next < graph.vertex_count)
    (hvertices : ∀ change ∈ batch.insertions, change.target < graph.vertex_count) (a next : Nat)
    (hn : next ∈ (apply_batch graph batch).row a) : next < graph.vertex_count := by
  rw [apply_batch_row] at hn
  split_ifs at hn with ha ht
  · rcases mem_rebuilt.mp hn with ⟨hm, -⟩ | hm
    · exact hbounded a next hm
    · exact hvertices ⟨a, next⟩ hm
  · exact hbounded a next hn
  · cases hn

-- What both phases add to the delta.
def update_amount (graph : DirectedGraph) (batch : EdgeBatch) (max_cycle_length : Nat) : Nat → Int :=
  phase_amount graph (normalize batch).deletions max_cycle_length (-1) +
    phase_amount (apply_batch graph (normalize batch)) (normalize batch).insertions
      max_cycle_length 1

-- The delta of an update.
structure IsDelta (graph : DirectedGraph) (batch : EdgeBatch) (max_cycle_length : Nat)
    (delta : List Int) : Prop where
  length : delta.length = places max_cycle_length
  total : delta_total delta = update_amount graph batch max_cycle_length

theorem IsDelta.unique {delta delta' : List Int} (h : IsDelta graph batch max_cycle_length delta)
    (h' : IsDelta graph batch max_cycle_length delta') : delta = delta' :=
  delta_ext (h.length.trans h'.length.symm) (h.total.trans h'.total.symm)

theorem make_delta_placed (h : places max_cycle_length ≤ MAX_PLACES) :
    make_delta max_cycle_length = .ok (List.replicate (places max_cycle_length) 0) :=
  if_neg (Nat.not_lt.mpr h)

theorem make_delta_oversized (h : MAX_PLACES < places max_cycle_length) :
    make_delta max_cycle_length =
      .error (.logic_error "cannot create std::vector larger than max_size()") := if_pos h

section Team

variable {requested_threads : Int} {deletion_run insertion_run : TeamRun}
  {buffers : Nat → VisitedBuffer} {available : Bool}

-- One thread of the program updates on its own.
theorem update_static_histogram_openmp_one (hmax : ¬max_cycle_length < 2) :
    update_static_histogram_openmp graph histogram batch max_cycle_length available 1 deletion_run
        insertion_run buffers =
      Outcome.serial ((update_static_histogram graph histogram batch max_cycle_length
        (buffers 0)).map fun result => (result.1, Function.update buffers 0 result.2)) := by
  rw [update_static_histogram_openmp, if_neg hmax,
    resolve_thread_count_eq (Int.le_refl 1) (Or.inr rfl)]
  simp

-- What is left of a team's update once both of its phases have returned.
theorem update_static_histogram_openmp_of_phases {delta delta₁ delta₂ : List Int}
    {buffers₁ buffers₂ : Nat → VisitedBuffer} (hmax : ¬max_cycle_length < 2)
    (hthreads : 1 < requested_threads) (hdelta : make_delta max_cycle_length = .ok delta)
    (hdeleted : accumulate_phase_parallel graph (normalize batch).deletions max_cycle_length (-1)
      requested_threads.toNat deletion_run delta buffers = .returned (delta₁, buffers₁))
    (hinserted : accumulate_phase_parallel (apply_batch graph (normalize batch))
      (normalize batch).insertions max_cycle_length 1 requested_threads.toNat insertion_run delta₁
      buffers₁ = .returned (delta₂, buffers₂)) :
    update_static_histogram_openmp graph histogram batch max_cycle_length true requested_threads
        deletion_run insertion_run buffers =
      Outcome.serial ((apply_histogram_delta histogram delta₂ max_cycle_length).map
        fun histogram => (histogram, buffers₂)) := by
  rw [update_static_histogram_openmp, if_neg hmax,
    resolve_thread_count_eq (by omega) (Or.inl rfl), Outcome.returned_bind,
    if_pos (by simp; omega), hdelta]
  change Outcome.bind (accumulate_phase_parallel _ _ _ _ _ _ _ _) _ = _
  rw [hdeleted]
  change Outcome.bind (accumulate_phase_parallel _ _ _ _ _ _ _ _) _ = _
  rw [hinserted]
  change Outcome.bind (Outcome.serial
    (apply_histogram_delta histogram delta₂ max_cycle_length)) _ = _
  cases apply_histogram_delta histogram delta₂ max_cycle_length with
  | error error => rfl
  | ok histogram => rfl

-- A vector that is too long is an error of the caller's thread.
theorem update_static_histogram_oversized (hmax : ¬max_cycle_length < 2)
    (h : MAX_PLACES < places max_cycle_length) (buffer : VisitedBuffer) :
    update_static_histogram graph histogram batch max_cycle_length buffer =
      .error (.logic_error "cannot create std::vector larger than max_size()") := by
  rw [update_static_histogram, if_neg hmax, make_delta_oversized h]
  rfl

theorem update_static_histogram_openmp_oversized (hmax : ¬max_cycle_length < 2)
    (h : MAX_PLACES < places max_cycle_length) (hthreads : 1 ≤ requested_threads)
    (havailable : available = true ∨ requested_threads = 1) :
    update_static_histogram_openmp graph histogram batch max_cycle_length available
        requested_threads deletion_run insertion_run buffers =
      .threw (.logic_error "cannot create std::vector larger than max_size()") := by
  by_cases hone : requested_threads = 1
  · rw [hone, update_static_histogram_openmp_one hmax, update_static_histogram_oversized hmax h]
    rfl
  · obtain rfl : available = true := havailable.resolve_right hone
    rw [update_static_histogram_openmp, if_neg hmax,
      resolve_thread_count_eq hthreads (Or.inl rfl), Outcome.returned_bind,
      if_pos (by simp; omega), make_delta_oversized h]
    rfl

end Team

section Changes

variable (hread : ∀ a, ∀ next ∈ graph.read_row a, next < graph.vertex_count)
  (hrows : ∀ a, ∀ next ∈ graph.row a, next < graph.vertex_count)
  (hvertices : ∀ change ∈ batch.deletions ++ batch.insertions,
    change.source < graph.vertex_count ∧ change.target < graph.vertex_count)

include hvertices in
theorem normalized_vertices : ∀ change ∈ (normalize batch).deletions ++ (normalize batch).insertions,
    change.source < graph.vertex_count ∧ change.target < graph.vertex_count := by
  intro change hm
  apply hvertices
  simpa [normalize] using hm

include hrows hvertices

theorem normalized_read_row_bounded (a next : Nat)
    (hn : next ∈ (apply_batch graph (normalize batch)).read_row a) : next < graph.vertex_count :=
  apply_batch_bounded (normalize batch) hrows
    (fun change hm => (normalized_vertices hvertices change (List.mem_append_right _ hm)).2) a next
    (DirectedGraph.mem_row_of_read (apply_batch_start _ _) hn)

include hread

-- One thread, whatever its buffer has been used for.
theorem update_static_histogram_cases (hmax : ¬max_cycle_length < 2)
    (hplaced : places max_cycle_length ≤ MAX_PLACES) {buffer : VisitedBuffer}
    (hclear : buffer.visited = Flags.none) :
    update_static_histogram graph histogram batch max_cycle_length buffer = .error .undefined ∨
      ∃ delta buffer', IsDelta graph batch max_cycle_length delta ∧
        buffer'.visited = Flags.none ∧
        update_static_histogram graph histogram batch max_cycle_length buffer =
          (apply_histogram_delta histogram delta max_cycle_length).map
            fun histogram => (histogram, buffer') := by
  have hchanges := normalized_vertices hvertices
  have hdelta := make_delta_placed hplaced
  rcases accumulate_phase_adds (-1) hread
      (fun change hm => hchanges change (List.mem_append_left _ hm))
      (List.length_replicate (n := places max_cycle_length) (a := 0)) hclear with
    hundefined | ⟨delta₁, buffer₁, hrun₁, hlength₁, hclear₁, htotal₁⟩
  · refine Or.inl ?_
    rw [update_static_histogram, if_neg hmax, hdelta]
    change Except.bind (accumulate_phase _ _ _ _ _ _) _ = _
    rw [hundefined]
    rfl
  rcases accumulate_phase_adds 1 (normalized_read_row_bounded hrows hvertices)
      (fun change hm => hchanges change (List.mem_append_right _ hm)) hlength₁ hclear₁ with
    hundefined | ⟨delta₂, buffer₂, hrun₂, hlength₂, hclear₂, htotal₂⟩
  · refine Or.inl ?_
    rw [update_static_histogram, if_neg hmax, hdelta]
    change Except.bind (accumulate_phase _ _ _ _ _ _) _ = _
    rw [hrun₁]
    change Except.bind (accumulate_phase _ _ _ _ _ _) _ = _
    rw [hundefined]
    rfl
  · refine Or.inr ⟨delta₂, buffer₂, ⟨hlength₂, ?_⟩, hclear₂, ?_⟩
    · rw [htotal₂, htotal₁, delta_total_zero, zero_add]
      rfl
    · exact update_static_histogram_of_phases hmax hdelta hrun₁ hrun₂

variable {requested_threads : Int} {deletion_run insertion_run : TeamRun}
  {buffers : Nat → VisitedBuffer}

-- A team of threads, whatever their buffers have been used for.
theorem update_static_histogram_team_cases (hmax : ¬max_cycle_length < 2)
    (hplaced : places max_cycle_length ≤ MAX_PLACES) (hthreads : 1 < requested_threads)
    (hdeletions : IsSchedule requested_threads.toNat (normalize batch).deletions.length
      deletion_run.schedule)
    (hinsertions : IsSchedule requested_threads.toNat (normalize batch).insertions.length
      insertion_run.schedule)
    (hclear : ∀ thread, (buffers thread).visited = Flags.none) :
    update_static_histogram_openmp graph histogram batch max_cycle_length true requested_threads
        deletion_run insertion_run buffers = .threw .undefined ∨
      ∃ delta buffers', IsDelta graph batch max_cycle_length delta ∧
        (∀ thread, (buffers' thread).visited = Flags.none) ∧
        update_static_histogram_openmp graph histogram batch max_cycle_length true
            requested_threads deletion_run insertion_run buffers =
          Outcome.serial ((apply_histogram_delta histogram delta max_cycle_length).map
            fun histogram => (histogram, buffers')) := by
  have hchanges := normalized_vertices hvertices
  have hdelta := make_delta_placed hplaced
  have hopen : ∀ {result : Outcome (CycleHistogram × (Nat → VisitedBuffer))},
      (accumulate_phase_parallel graph (normalize batch).deletions max_cycle_length (-1)
        requested_threads.toNat deletion_run (List.replicate (places max_cycle_length) 0)
        buffers).bind (fun first =>
          (accumulate_phase_parallel (apply_batch graph (normalize batch))
            (normalize batch).insertions max_cycle_length 1 requested_threads.toNat insertion_run
            first.1 first.2).bind fun second =>
              (Outcome.serial (apply_histogram_delta histogram second.1 max_cycle_length)).bind
                fun updated => .returned (updated, second.2)) = result →
      update_static_histogram_openmp graph histogram batch max_cycle_length true requested_threads
        deletion_run insertion_run buffers = result := by
    intro result hresult
    rw [update_static_histogram_openmp, if_neg hmax,
      resolve_thread_count_eq (by omega) (Or.inl rfl), Outcome.returned_bind,
      if_pos (by simp; omega), hdelta]
    exact hresult
  rcases accumulate_phase_parallel_adds (-1) hread
      (fun change hm => hchanges change (List.mem_append_left _ hm)) hdeletions
      (List.length_replicate (n := places max_cycle_length) (a := 0)) hclear with
    hundefined | ⟨delta₁, buffers₁, hrun₁, hlength₁, hclear₁, htotal₁⟩
  · refine Or.inl (hopen ?_)
    rw [hundefined]
    rfl
  rcases accumulate_phase_parallel_adds 1 (normalized_read_row_bounded hrows hvertices)
      (fun change hm => hchanges change (List.mem_append_right _ hm)) hinsertions hlength₁
      hclear₁ with
    hundefined | ⟨delta₂, buffers₂, hrun₂, hlength₂, hclear₂, htotal₂⟩
  · refine Or.inl (hopen ?_)
    rw [hrun₁]
    change Outcome.bind (accumulate_phase_parallel _ _ _ _ _ _ _ _) _ = _
    rw [hundefined]
    rfl
  · refine Or.inr ⟨delta₂, buffers₂, ⟨hlength₂, ?_⟩, hclear₂, ?_⟩
    · rw [htotal₂, htotal₁, delta_total_zero, zero_add]
      rfl
    · exact update_static_histogram_openmp_of_phases hmax hthreads hdelta hrun₁ hrun₂

end Changes

-- A team comes to what one thread comes to, and leaves all buffers clear. Neither has
-- undefined behaviour.
structure TeamAgrees (sequential : Except Error (CycleHistogram × VisitedBuffer))
    (team : Outcome (CycleHistogram × (Nat → VisitedBuffer))) : Prop where
  defined : sequential ≠ .error .undefined
  team_defined : team ≠ .threw .undefined
  result : team.bind (fun result => .returned result.1) = Outcome.serial (sequential.map (·.1))
  clear : ∀ result, team = .returned result → ∀ thread, (result.2 thread).visited = Flags.none

variable {requested_threads : Int} {deletion_run insertion_run : TeamRun}
  {buffers : Nat → VisitedBuffer} {available : Bool} {buffer : VisitedBuffer}

-- Both throw the same error before any thread starts.
theorem TeamAgrees.of_errors {sequential : Except Error (CycleHistogram × VisitedBuffer)}
    {team : Outcome (CycleHistogram × (Nat → VisitedBuffer))} {error : Error}
    (hsequential : sequential = .error error) (hteam : team = .threw error)
    (herror : error ≠ .undefined) : TeamAgrees sequential team := by
  subst hsequential hteam
  exact ⟨fun h => herror (Except.error.inj h), fun h => herror (Outcome.threw.inj h), rfl,
    fun result hreturned => by cases hreturned⟩

-- Both apply the same delta.
theorem TeamAgrees.of_applied {sequential : Except Error (CycleHistogram × VisitedBuffer)}
    {team : Outcome (CycleHistogram × (Nat → VisitedBuffer))} {applied : Except Error CycleHistogram}
    {buffer' : VisitedBuffer} {buffers' : Nat → VisitedBuffer}
    (hsequential : sequential = applied.map fun histogram => (histogram, buffer'))
    (hteam : team = Outcome.serial (applied.map fun histogram => (histogram, buffers')))
    (hclear : ∀ thread, (buffers' thread).visited = Flags.none)
    (hdefined : sequential ≠ .error .undefined) : TeamAgrees sequential team := by
  subst hsequential hteam
  cases applied with
  | error error =>
      exact ⟨hdefined, fun h => hdefined (congrArg Except.error (Outcome.threw.inj h)), rfl,
        fun result hreturned => by cases hreturned⟩
  | ok updated =>
      refine ⟨hdefined, nofun, rfl, fun result hreturned => ?_⟩
      obtain rfl := Outcome.returned.inj hreturned
      exact hclear

theorem update_clear {buffer₀ : VisitedBuffer}
    (hclear : ∀ thread, (buffers thread).visited = Flags.none)
    (hclear₀ : buffer₀.visited = Flags.none) (thread : Nat) :
    (Function.update buffers 0 buffer₀ thread).visited = Flags.none := by
  by_cases ht : thread = 0
  · rw [ht, Function.update_self]
    exact hclear₀
  · rw [Function.update_of_ne ht]
    exact hclear thread

-- The delta of a team is that of one thread, whatever the schedule.
theorem team_agrees_of_defined
    (hneighbors : ∀ next ∈ graph.neighbors, next < graph.vertex_count)
    (hvertices : ∀ change ∈ batch.deletions ++ batch.insertions,
      change.source < graph.vertex_count ∧ change.target < graph.vertex_count)
    (hmax : ¬max_cycle_length < 2) (hplaced : places max_cycle_length ≤ MAX_PLACES)
    (hthreads : 1 ≤ requested_threads) (havailable : available = true ∨ requested_threads = 1)
    (hdeletions : IsSchedule requested_threads.toNat (normalize batch).deletions.length
      deletion_run.schedule)
    (hinsertions : IsSchedule requested_threads.toNat (normalize batch).insertions.length
      insertion_run.schedule)
    (hclear : ∀ thread, (buffers thread).visited = Flags.none)
    (hbuffer : buffer.visited = Flags.none)
    (hsequential : update_static_histogram graph histogram batch max_cycle_length buffer ≠
      .error .undefined)
    (hteam : update_static_histogram_openmp graph histogram batch max_cycle_length available
      requested_threads deletion_run insertion_run buffers ≠ .threw .undefined) :
    TeamAgrees (update_static_histogram graph histogram batch max_cycle_length buffer)
      (update_static_histogram_openmp graph histogram batch max_cycle_length available
        requested_threads deletion_run insertion_run buffers) := by
  obtain ⟨delta, buffer', hdelta, -, hrun⟩ := (update_static_histogram_cases
    (DirectedGraph.read_row_bounded hneighbors) (DirectedGraph.row_bounded hneighbors) hvertices
    hmax hplaced hbuffer).resolve_left hsequential
  by_cases hone : requested_threads = 1
  · subst hone
    have hserial := @update_static_histogram_openmp_one graph histogram batch max_cycle_length
      deletion_run insertion_run buffers available hmax
    rcases @update_static_histogram_cases graph histogram batch max_cycle_length
        (DirectedGraph.read_row_bounded hneighbors) (DirectedGraph.row_bounded hneighbors)
        hvertices hmax hplaced _
        (hclear 0) with hundefined | ⟨delta', buffer₀, hdelta', hclear₀, hrun₀⟩
    · rw [hserial, hundefined] at hteam
      exact absurd rfl hteam
    obtain rfl := hdelta'.unique hdelta
    refine TeamAgrees.of_applied hrun (hserial.trans ?_) (update_clear hclear hclear₀) hsequential
    rw [hrun₀]
    cases apply_histogram_delta histogram delta' max_cycle_length with
    | error error => rfl
    | ok updated => rfl
  · obtain rfl : available = true := havailable.resolve_right hone
    obtain ⟨delta', buffers', hdelta', hclear', hrun'⟩ := (update_static_histogram_team_cases
      (DirectedGraph.read_row_bounded hneighbors) (DirectedGraph.row_bounded hneighbors) hvertices
      hmax hplaced (by omega) hdeletions hinsertions hclear).resolve_left hteam
    obtain rfl := hdelta'.unique hdelta
    exact TeamAgrees.of_applied hrun hrun' hclear' hsequential

section Unplaced

-- `max_length + 1` wraps to 0 and the vectors have no place at all.
theorem places_last (h : max_cycle_length + 1 = 2 ^ 64) : places max_cycle_length = 0 := by
  rw [places, h]
  rfl

theorem accumulate_phase_unplaced {changes : List EdgeChange} (sign : Int) (delta : List Int)
    (hlast : max_cycle_length + 1 = 2 ^ 64) (hne : changes ≠ [])
    (hbounded : ∀ a, ∀ next ∈ graph.read_row a, next < graph.vertex_count)
    (hvertices : ∀ change ∈ changes,
      change.source < graph.vertex_count ∧ change.target < graph.vertex_count)
    (hclear : buffer.visited = Flags.none) :
    accumulate_phase graph changes max_cycle_length sign delta buffer = .error .undefined := by
  obtain ⟨change, rest, rfl⟩ := List.exists_cons_of_ne_nil hne
  obtain ⟨hs, ht⟩ := hvertices change (by simp)
  obtain ⟨buffer', hcount, -⟩ := count_cycles_through_edge_ok (change :: rest) change 0
    max_cycle_length hbounded hs ht (List.replicate (places max_cycle_length) 0) hclear
  have hlengths : List.range' 2 (max_cycle_length - 1) =
      2 :: List.range' 3 (max_cycle_length - 2) := by
    rw [show max_cycle_length - 1 = max_cycle_length - 2 + 1 by omega, List.range'_succ]
  rw [accumulate_phase, List.zipIdx_cons, List.foldlM_cons]
  dsimp only
  rw [hcount, hlengths]
  change ((List.foldlM (add_counts sign _) delta (2 :: _)).bind _).bind _ = _
  rw [List.foldlM_cons, add_counts, if_pos (Or.inl (by simp [places_last hlast]))]
  rfl

theorem add_entry_defined (result : CycleHistogram) (entry : Nat × Int) :
    add_entry result entry ≠ .error .undefined := by
  intro h
  unfold add_entry at h
  split_ifs at h
  · cases h
  · simp only [CycleHistogram.increment, CycleHistogram.ensure_valid_length,
      CycleHistogram.ensure_addition_safe] at h
    split_ifs at h <;> cases h
  · cases h

theorem foldlM_add_entry_defined (entries : List (Nat × Int)) (result : CycleHistogram) :
    entries.foldlM add_entry result ≠ .error .undefined := by
  induction entries generalizing result with
  | nil => exact fun h => by cases h
  | cons entry entries ih =>
      intro h
      rw [List.foldlM_cons] at h
      cases hone : add_entry result entry with
      | error error =>
          rw [hone] at h
          exact add_entry_defined result entry (hone.trans h)
      | ok next =>
          rw [hone] at h
          exact ih next h

-- A batch without changes adds nothing up.
theorem update_static_histogram_unplaced (hmax : ¬max_cycle_length < 2)
    (hlast : max_cycle_length + 1 = 2 ^ 64) (hdeletions : batch.deletions = [])
    (hinsertions : batch.insertions = []) (buffer : VisitedBuffer) :
    update_static_histogram graph histogram batch max_cycle_length buffer =
      (apply_histogram_delta histogram [] max_cycle_length).map
        fun histogram => (histogram, buffer) := by
  have hdelta : make_delta max_cycle_length = .ok [] := by
    rw [make_delta_placed (by rw [places_last hlast]; decide), places_last hlast]
    rfl
  have hdeleted : accumulate_phase graph (normalize batch).deletions max_cycle_length (-1) [] buffer =
      .ok ([], buffer) := by
    rw [normalize, hdeletions]
    rfl
  refine update_static_histogram_of_phases hmax hdelta hdeleted ?_
  rw [normalize, hinsertions]
  rfl

theorem unplaced_defined (hmax : ¬max_cycle_length < 2)
    (hlast : max_cycle_length + 1 = 2 ^ 64) (hdeletions : batch.deletions = [])
    (hinsertions : batch.insertions = []) (buffer : VisitedBuffer) :
    update_static_histogram graph histogram batch max_cycle_length buffer ≠ .error .undefined := by
  rw [update_static_histogram_unplaced hmax hlast hdeletions hinsertions]
  have hnone : apply_histogram_delta histogram [] max_cycle_length =
      (histogram.entries.map fun _ count => to_signed count).toList.foldlM add_entry ∅ := by
    have hlengths : (List.range' 2 (max_cycle_length - 1)).takeWhile
        (fun length => decide (length < ([] : List Int).length)) = [] := by
      rw [show max_cycle_length - 1 = max_cycle_length - 2 + 1 by omega, List.range'_succ]
      rfl
    rw [apply_histogram_delta, hlengths]
    rfl
  intro h
  cases hrun : apply_histogram_delta histogram [] max_cycle_length with
  | error error =>
      rw [hrun] at h
      exact foldlM_add_entry_defined _ ∅ (hnone.symm.trans (hrun.trans (congrArg Except.error
        (Except.error.inj h))))
  | ok updated =>
      rw [hrun] at h
      cases h

theorem unplaced_team_defined (hmax : ¬max_cycle_length < 2)
    (hlast : max_cycle_length + 1 = 2 ^ 64) (hdeletions : batch.deletions = [])
    (hinsertions : batch.insertions = []) (hthreads : 1 ≤ requested_threads)
    (havailable : available = true ∨ requested_threads = 1) :
    update_static_histogram_openmp graph histogram batch max_cycle_length available
      requested_threads deletion_run insertion_run buffers ≠ .threw .undefined := by
  have hdefined := @unplaced_defined graph histogram batch max_cycle_length hmax hlast hdeletions
    hinsertions (buffers 0)
  have hrun := @update_static_histogram_unplaced graph histogram batch max_cycle_length hmax hlast
    hdeletions hinsertions (buffers 0)
  by_cases hone : requested_threads = 1
  · subst hone
    rw [update_static_histogram_openmp_one hmax]
    intro h
    cases hupdate : update_static_histogram graph histogram batch max_cycle_length (buffers 0) with
    | error error =>
        rw [hupdate] at h
        exact hdefined (hupdate.trans (congrArg Except.error (Outcome.threw.inj h)))
    | ok result =>
        rw [hupdate] at h
        cases h
  · obtain rfl : available = true := havailable.resolve_right hone
    have hdelta : make_delta max_cycle_length = .ok [] := by
      rw [make_delta_placed (by rw [places_last hlast]; decide), places_last hlast]
      rfl
    have hdeleted : accumulate_phase_parallel graph (normalize batch).deletions max_cycle_length (-1)
        requested_threads.toNat deletion_run [] buffers = .returned ([], buffers) := by
      rw [normalize, hdeletions]
      rfl
    have hinserted : accumulate_phase_parallel (apply_batch graph (normalize batch))
        (normalize batch).insertions max_cycle_length 1 requested_threads.toNat insertion_run []
        buffers = .returned ([], buffers) := by
      rw [normalize, hinsertions]
      rfl
    rw [update_static_histogram_openmp_of_phases hmax (by omega) hdelta hdeleted hinserted]
    rw [hrun] at hdefined
    intro h
    cases happly : apply_histogram_delta histogram [] max_cycle_length with
    | error error =>
        rw [happly] at h hdefined
        exact hdefined (congrArg Except.error (Outcome.threw.inj h))
    | ok updated =>
        rw [happly] at h
        cases h

-- With a change the first count is written beyond the vector.
theorem update_static_histogram_undefined
    (hneighbors : ∀ next ∈ graph.neighbors, next < graph.vertex_count)
    (hvertices : ∀ change ∈ batch.deletions ++ batch.insertions,
      change.source < graph.vertex_count ∧ change.target < graph.vertex_count)
    (hmax : ¬max_cycle_length < 2) (hlast : max_cycle_length + 1 = 2 ^ 64)
    (hchanged : batch.deletions ≠ [] ∨ batch.insertions ≠ []) (hclear : buffer.visited = Flags.none) :
    update_static_histogram graph histogram batch max_cycle_length buffer = .error .undefined := by
  have hchanges := normalized_vertices hvertices
  have hdelta : make_delta max_cycle_length = .ok [] := by
    rw [make_delta_placed (by rw [places_last hlast]; decide), places_last hlast]
    rfl
  have hnonempty : ∀ {changes : List EdgeChange}, changes ≠ [] →
      sort_and_dedup changes ≠ [] := by
    intro changes hne
    obtain ⟨change, hm⟩ := List.exists_mem_of_ne_nil changes hne
    exact List.ne_nil_of_mem (show change ∈ sort_and_dedup changes by simpa using hm)
  rw [update_static_histogram, if_neg hmax, hdelta]
  change Except.bind (accumulate_phase _ _ _ _ _ _) _ = _
  by_cases hdeletions : batch.deletions = []
  · have hnone : accumulate_phase graph (normalize batch).deletions max_cycle_length (-1) [] buffer =
        .ok ([], buffer) := by
      rw [normalize, hdeletions]
      rfl
    have hinsertions : (normalize batch).insertions ≠ [] :=
      hnonempty (hchanged.resolve_left (not_not_intro hdeletions))
    rw [hnone]
    change Except.bind (accumulate_phase _ _ _ _ _ _) _ = _
    rw [accumulate_phase_unplaced 1 [] hlast hinsertions
      (normalized_read_row_bounded (DirectedGraph.row_bounded hneighbors) hvertices)
      (fun change hm => hchanges change (List.mem_append_right _ hm)) hclear]
    rfl
  · have hdeletions : (normalize batch).deletions ≠ [] := hnonempty hdeletions
    rw [accumulate_phase_unplaced (-1) [] hlast hdeletions (DirectedGraph.read_row_bounded hneighbors)
      (fun change hm => hchanges change (List.mem_append_left _ hm)) hclear]
    rfl

end Unplaced

-- Unless a count or a delta leaves the range of `long long`, which is undefined, every
-- team on every schedule comes to what one thread comes to, and all buffers are clear
-- after it. With the largest length and a change both write beyond their vectors.
theorem update_static_histogram_schedule_independent
    (hneighbors : ∀ next ∈ graph.neighbors, next < graph.vertex_count)
    (hvertices : ∀ change ∈ batch.deletions ++ batch.insertions,
      change.source < graph.vertex_count ∧ change.target < graph.vertex_count)
    (hword : max_cycle_length < 2 ^ 64) (hthreads : 1 ≤ requested_threads)
    (havailable : available = true ∨ requested_threads = 1)
    (hdeletions : IsSchedule requested_threads.toNat (normalize batch).deletions.length
      deletion_run.schedule)
    (hinsertions : IsSchedule requested_threads.toNat (normalize batch).insertions.length
      insertion_run.schedule)
    (hclear : ∀ thread, (buffers thread).visited = Flags.none)
    (hbuffer : buffer.visited = Flags.none)
    (hsequential : max_cycle_length + 1 < 2 ^ 64 →
      update_static_histogram graph histogram batch max_cycle_length buffer ≠ .error .undefined)
    (hteam : max_cycle_length + 1 < 2 ^ 64 →
      update_static_histogram_openmp graph histogram batch max_cycle_length available
        requested_threads deletion_run insertion_run buffers ≠ .threw .undefined) :
    TeamAgrees (update_static_histogram graph histogram batch max_cycle_length buffer)
        (update_static_histogram_openmp graph histogram batch max_cycle_length available
          requested_threads deletion_run insertion_run buffers) ↔
      max_cycle_length + 1 < 2 ^ 64 ∨ batch.deletions = [] ∧ batch.insertions = [] := by
  by_cases hmax : max_cycle_length < 2
  · have hshort : update_static_histogram graph histogram batch max_cycle_length buffer =
        .error (.invalid_argument "max_cycle_length must be at least 2") := by
      rw [update_static_histogram, if_pos hmax]
      rfl
    refine iff_of_true (TeamAgrees.of_errors hshort ?_ (by simp)) (Or.inl (by omega))
    rw [update_static_histogram_openmp, if_pos hmax]
  by_cases hplaced : MAX_PLACES < places max_cycle_length
  · refine iff_of_true (TeamAgrees.of_errors (update_static_histogram_oversized hmax hplaced buffer)
      (update_static_histogram_openmp_oversized hmax hplaced hthreads havailable) (by simp))
      (Or.inl ?_)
    by_contra hlast
    rw [places_last (by omega)] at hplaced
    exact absurd hplaced (Nat.not_lt_zero _)
  have hagrees := @team_agrees_of_defined graph histogram batch max_cycle_length _ _ _ _ _ _
    hneighbors hvertices hmax (Nat.le_of_not_lt hplaced) hthreads havailable hdeletions hinsertions
    hclear hbuffer
  by_cases hlast : max_cycle_length + 1 < 2 ^ 64
  · exact iff_of_true (hagrees (hsequential hlast) (hteam hlast)) (Or.inl hlast)
  have hend : max_cycle_length + 1 = 2 ^ 64 := by omega
  by_cases hnone : batch.deletions = [] ∧ batch.insertions = []
  · exact iff_of_true (hagrees (unplaced_defined hmax hend hnone.1 hnone.2 buffer)
      (unplaced_team_defined hmax hend hnone.1 hnone.2 hthreads havailable)) (Or.inr hnone)
  · refine iff_of_false (fun h => h.defined ?_) (fun h => h.elim hlast hnone)
    exact update_static_histogram_undefined hneighbors hvertices hmax hend
      (Classical.not_and_iff_not_or_not.mp hnone) hbuffer

end Update

section Sample

def ring_graph : DirectedGraph := ⟨3, [0, 1, 2, 3], [1, 2, 0]⟩

-- An edge that is deleted and inserted again, one that is inserted twice, and a loop.
def ring_batch : EdgeBatch := ⟨[⟨0, 1⟩], [⟨1, 0⟩, ⟨0, 1⟩, ⟨1, 0⟩, ⟨2, 2⟩]⟩

-- In the second phase the threads change places.
def ring_runs : TeamRun × TeamRun :=
  (⟨[(1, 0)], id⟩, ⟨[(1, 2), (0, 0), (1, 1)], fun thread => 1 - thread⟩)

theorem update_static_histogram_schedule_independent_sample :
    TeamAgrees (update_static_histogram ring_graph ∅ ring_batch 3 ⟨5, Flags.none⟩)
        (update_static_histogram_openmp ring_graph ∅ ring_batch 3 true 2 ring_runs.1 ring_runs.2
          fun _ => ⟨0, Flags.none⟩) ↔
      3 + 1 < 2 ^ 64 ∨ ring_batch.deletions = [] ∧ ring_batch.insertions = [] := by
  refine update_static_histogram_schedule_independent (by decide) (by decide) (by decide)
    (by decide) (Or.inl rfl) ⟨by decide, by decide⟩ ⟨by decide, by decide⟩ (fun _ => rfl) rfl
    (fun _ => ?_) (fun _ => ?_)
  · intro hundefined
    exact absurd (congrArg (fun result => result.toOption.isSome) hundefined) (by decide +kernel)
  · intro hundefined
    cases hundefined

-- One edge inserted into a graph without edges.
theorem update_static_histogram_unplaced_sample :
    update_static_histogram ⟨2, [0, 0, 0], []⟩ ∅ ⟨[], [⟨0, 1⟩]⟩ (2 ^ 64 - 1) ⟨0, Flags.none⟩ =
      .error .undefined :=
  update_static_histogram_undefined (by decide) (by decide) (by decide) rfl (Or.inr (by simp)) rfl

end Sample

end CycleEnum.Dynamic
