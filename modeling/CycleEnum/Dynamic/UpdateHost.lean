import CycleEnum.Cuda.StaticHost
import CycleEnum.Dynamic.Theorems
import CycleEnum.Dynamic.UpdateCuda

namespace CycleEnum.Dynamic

open CycleEnum.Cuda CycleEnum.Enumeration CycleEnum.Parallel

section Host

-- An empty array is not allocated. The size of the others wraps around.
def device_alloc (element_size count : Nat) : List CudaCall :=
  if count > 0 then [.malloc (wrap (element_size * count))] else []

-- The calls of a phase, from the choice of the device to the copy of the counts.
def owned_cycles_calls (graph : DirectedGraph) (phase_changes : List EdgeChange)
    (max_cycle_length : Nat) (device_id : Int) : List CudaCall :=
  let work_count := phase_changes.length
  let stack_slots := wrap (work_count * max_cycle_length)
  let visited_slots := wrap (work_count * graph.vertex_count)
  .set_device device_id :: device_alloc 8 graph.offsets.length ++
    device_alloc 4 graph.neighbors.length ++ device_alloc 8 work_count ++
    device_alloc 4 stack_slots ++ device_alloc 8 stack_slots ++ device_alloc 1 visited_slots ++
    device_alloc 8 (places max_cycle_length) ++
    [.memcpy (8 * graph.offsets.length) "copy offsets"] ++
    copy_values 4 graph.neighbors.length "copy neighbors" ++
    [.memcpy (8 * work_count) "copy changes", .memset visited_slots "clear visited",
      .memset (8 * places max_cycle_length) "clear counts"] ++
    launch_kernel "count_owned_cycles_kernel" ⟨128, to_uint32 ((work_count + 128 - 1) / 128)⟩ 0 ++
    [.memcpy (8 * places max_cycle_length) "copy counts"]

-- Without changes or without vertices no call is made.
def count_owned_cycles_device (runtime : CudaRuntime) (graph : DirectedGraph)
    (phase_changes : List EdgeChange) (max_cycle_length : Nat) (device_id : Int)
    (result : Except Error (List Nat)) : Prop :=
  match make_vector Nat max_cycle_length with
  | .error error => result = .error error
  | .ok counts =>
    if phase_changes.isEmpty ∨ graph.vertex_count = 0 then result = .ok counts
    else match runtime.make (owned_cycles_calls graph phase_changes max_cycle_length device_id) with
    | .error error => result = .error error
    | .ok () => ∃ counts, OwnedCycles graph phase_changes max_cycle_length counts ∧
        result = .ok counts

-- The device first, then the deletions on the old graph and the insertions on the new one.
def update_on_device (runtime : CudaRuntime) (initial_graph : DirectedGraph)
    (initial_histogram : CycleHistogram) (batch : EdgeBatch) (max_cycle_length : Nat)
    (device_id : Int) (result : Except Error CycleHistogram) : Prop :=
  let normalized := normalize batch
  match runtime.require_device device_id with
  | .error error => result = .error error
  | .ok () =>
      ∃ deleted, count_owned_cycles_device runtime initial_graph normalized.deletions
          max_cycle_length device_id deleted ∧
        match deleted with
        | .error error => result = .error error
        | .ok deleted =>
            ∃ inserted, count_owned_cycles_device runtime (apply_batch initial_graph normalized)
                normalized.insertions max_cycle_length device_id inserted ∧
              result = do
                let delta ← device_delta (← inserted) deleted max_cycle_length
                apply_histogram_delta initial_histogram delta max_cycle_length

-- A build without CUDA has no runtime.
def update_static_histogram_cuda (runtime : Option CudaRuntime) (initial_graph : DirectedGraph)
    (initial_histogram : CycleHistogram) (batch : EdgeBatch) (max_cycle_length : Nat)
    (device_id : Int) (result : Except Error CycleHistogram) : Prop :=
  if max_cycle_length < 2 then
    result = .error (.invalid_argument "max_cycle_length must be at least 2")
  else
    match runtime with
    | none => result = .error (.runtime_error "CUDA support is not compiled into this build")
    | some runtime => update_on_device runtime initial_graph initial_histogram batch
        max_cycle_length device_id result

end Host

section Calls

variable {runtime : CudaRuntime} {graph : DirectedGraph} {phase_changes : List EdgeChange}
  {max_cycle_length : Nat}

-- The error names a call that failed although a device grants it.
def CallFailed {α : Type} (runtime : CudaRuntime) (result : Except Error α) : Prop :=
  ∃ call text, call.granted ∧ runtime.failure call = some text ∧
    result = .error (.runtime_error (call.operation ++ " failed: " ++ text))

-- The kernel takes blocks of 128 threads and no shared memory.
theorem owned_cycles_calls_granted (graph : DirectedGraph) (phase_changes : List EdgeChange)
    (max_cycle_length : Nat) (device_id : Int) :
    (owned_cycles_calls graph phase_changes max_cycle_length device_id).all CudaCall.granted =
      true := by
  have halloc : ∀ element_size count,
      (device_alloc element_size count).all CudaCall.granted = true := fun element_size count => by
    unfold device_alloc
    split_ifs <;> rfl
  simp [owned_cycles_calls, launch_kernel, CudaCall.granted, halloc]

theorem count_owned_cycles_device_cases {device_id : Int} {result : Except Error (List Nat)}
    (hfew : max_cycle_length + 1 ≤ MAX_PLACES)
    (h : count_owned_cycles_device runtime graph phase_changes max_cycle_length device_id result) :
    CallFailed runtime result ∨
      ∃ counts, OwnedCycles graph phase_changes max_cycle_length counts ∧ result = .ok counts := by
  rw [count_owned_cycles_device, make_vector_eq hfew] at h
  dsimp only at h
  split_ifs at h with hidle
  · refine Or.inr ⟨_, (if_pos hidle).mpr ?_, h⟩
    rw [places_eq hfew]
  · rcases make_cases runtime (owned_cycles_calls graph phase_changes max_cycle_length device_id) with
      hok | ⟨call, hmem, text, hfails, herror⟩
    · rw [hok] at h
      exact Or.inr h
    · rw [herror] at h
      exact Or.inl ⟨call, text, List.all_eq_true.mp (owned_cycles_calls_granted _ _ _ _) call hmem,
        hfails, h⟩

-- The items of the kernel come to their ends.
theorem exists_owned_cycles (hp : DevicePhase graph phase_changes max_cycle_length)
    (hstride : graph.vertex_count < 2 ^ 32) :
    ∃ counts, OwnedCycles graph phase_changes max_cycle_length counts := by
  unfold OwnedCycles
  split_ifs with hidle
  · exact ⟨_, rfl⟩
  · have hclear : UpdatePools.Cleared ⟨fun _ => 0, fun _ => 0, fun _ => false, fun _ => 0⟩ :=
      ⟨fun _ => rfl, fun _ => rfl⟩
    obtain ⟨pool, trace, hr, hdone⟩ :=
      Ends.exists_end ((kernel_agrees hp (Or.inl hstride)).ends _ hclear)
    exact ⟨_, _, pool, trace, hclear, hr, hdone, rfl⟩

theorem exists_device_counts (device_id : Int) (hp : DevicePhase graph phase_changes max_cycle_length)
    (hstride : graph.vertex_count < 2 ^ 32) (hworks : runtime.Works) :
    ∃ counts, OwnedCycles graph phase_changes max_cycle_length counts ∧
      count_owned_cycles_device runtime graph phase_changes max_cycle_length device_id (.ok counts) := by
  obtain ⟨counts, hcounts⟩ := exists_owned_cycles hp hstride
  refine ⟨counts, hcounts, ?_⟩
  rw [count_owned_cycles_device, make_vector_eq hp.few]
  dsimp only
  split_ifs with hidle
  · rw [OwnedCycles, if_pos hidle, places_eq hp.few] at hcounts
    rw [hcounts]
  · rw [make_of_works hworks (owned_cycles_calls_granted _ _ _ _)]
    exact ⟨counts, hcounts, rfl⟩

end Calls

section Update

-- The sizes that the kernel can tell apart and that its arrays can have.
structure DeviceRoom (graph : DirectedGraph) (batch : EdgeBatch) (max_cycle_length : Nat) : Prop where
  vertices : graph.vertex_count < 2 ^ 32
  max_length : max_cycle_length ≤ INT_MAX
  deletions_allocated : (normalize batch).deletions.length * graph.vertex_count < 2 ^ 45
  insertions_allocated : (normalize batch).insertions.length * graph.vertex_count < 2 ^ 45

variable {graph : DirectedGraph} {batch : EdgeBatch} {max_cycle_length : Nat}

theorem DeviceRoom.update (hroom : DeviceRoom graph batch max_cycle_length) (hvalid : graph.Valid)
    (hb : batch.Fits graph) (hmax : 2 ≤ max_cycle_length) :
    DeviceUpdate graph batch max_cycle_length where
  valid := hvalid
  row_ids next hn := Nat.lt_trans (hvalid.bounded next hn) hroom.vertices
  vertices := hb.vertices
  ids change hm := (hb.vertices change hm).imp (Nat.lt_trans · hroom.vertices)
    (Nat.lt_trans · hroom.vertices)
  min_length := hmax
  max_length := hroom.max_length
  deletions_allocated := hroom.deletions_allocated
  insertions_allocated := hroom.insertions_allocated

-- The counts have a place for every length.
theorem owned_cycles_length {phase_changes : List EdgeChange}
    (hp : DevicePhase graph phase_changes max_cycle_length) {counts : List Nat}
    (h : OwnedCycles graph phase_changes max_cycle_length counts) :
    counts.length = max_cycle_length + 1 := by
  unfold OwnedCycles at h
  split_ifs at h with hidle
  · rw [h, List.length_replicate, places_eq hp.few]
  · obtain ⟨-, pool, -, -, -, -, rfl⟩ := h
    rw [List.length_map, List.length_range, places_eq hp.few]

-- The loop of the device's delta comes to its end where every difference fits.
theorem differences_ok {inserted deleted : List Nat} {lengths : List Nat}
    (h : ∀ k ∈ lengths, Signed (count_difference inserted deleted k)) (delta : List Int)
    (hinside : ∀ k ∈ lengths, k < inserted.length ∧ k < deleted.length ∧ k < delta.length) :
    ∃ delta', lengths.foldlM (write_difference inserted deleted) delta = .ok delta' := by
  induction lengths generalizing delta with
  | nil => exact ⟨delta, rfl⟩
  | cons length lengths ih =>
      obtain ⟨delta', hrun⟩ := ih (fun k hk => h k (List.mem_cons_of_mem _ hk))
        (delta.set length (count_difference inserted deleted length)) fun k hk => by
          rw [List.length_set]
          exact hinside k (List.mem_cons_of_mem _ hk)
      have hplace := hinside length List.mem_cons_self
      refine ⟨delta', ?_⟩
      rw [List.foldlM_cons, write_difference, if_neg (by omega), signed_ok (h length List.mem_cons_self)]
      exact hrun

-- Small counts of the owners are counts of the cycles, without a cut.
theorem owned_cycles_phase {phase_changes : List EdgeChange}
    (hp : DevicePhase graph phase_changes max_cycle_length) (hstride : graph.vertex_count < 2 ^ 32)
    (hg : graph.Sorted) (hc : PhaseChanges graph phase_changes)
    (hloops : ∀ change ∈ phase_changes, change.source ≠ change.target) {counts : List Nat}
    (h : OwnedCycles graph phase_changes max_cycle_length counts) {k : Nat}
    (hcap : k ≤ max_cycle_length) (hsmall : phase_number graph phase_changes k < 2 ^ 63) :
    to_signed (counts.getD k 0) = phase_number graph phase_changes k := by
  have htotal : owned_total graph phase_changes max_cycle_length k =
      phase_number graph phase_changes k := by
    rw [phase_number_eq_countP hg hstride hc hloops hp.min_length hcap, owned_total, List.countP_flatMap]
    rfl
  rw [owned_cycles_counts hp (Or.inl hstride) h hcap, htotal, Nat.mod_eq_of_lt (by omega)]
  exact to_signed_eq hsmall

variable (hg : graph.WellFormed) (hvalid : graph.Valid) (hb : batch.Fits graph)
  (hmax : 2 ≤ max_cycle_length) (hroom : DeviceRoom graph batch max_cycle_length)
  (h : Countable graph max_cycle_length) (h' : Countable (apply_batch graph batch) max_cycle_length)

include hg hvalid hb hmax hroom h h'

theorem count_difference_signed {deleted inserted : List Nat}
    (hdeleted : OwnedCycles graph (normalize batch).deletions max_cycle_length deleted)
    (hinserted : OwnedCycles (apply_batch graph (normalize batch)) (normalize batch).insertions
      max_cycle_length inserted) {k : Nat} (hk : 2 ≤ k) (hcap : k ≤ max_cycle_length) :
    Signed (count_difference inserted deleted k) := by
  have hu := hroom.update hvalid hb hmax
  have hfits := normalize_fits hb
  have hg' := apply_batch_well_formed hg hfits
  obtain ⟨heq, hle, hle', hlt, hlt'⟩ := update_numbers hg hb h h' hk hcap
  rw [count_difference,
    owned_cycles_phase hu.deleted hroom.vertices hg.sorted (deletions_phase hb)
      (fun change hm => hfits.no_loop change (List.mem_append_left _ hm)) hdeleted hcap (by omega),
    owned_cycles_phase hu.inserted hroom.vertices hg'.sorted (insertions_phase hg hb)
      (fun change hm => hfits.no_loop change (List.mem_append_right _ hm)) hinserted hcap (by omega)]
  unfold Signed
  omega

-- Whatever order the items run in, the device comes to the counts of the new graph.
theorem updates_on_device_counted {histogram : CycleHistogram}
    (hcounted : Counted graph max_cycle_length histogram) :
    ∃ updated, Counted (apply_batch graph batch) max_cycle_length updated ∧
      ∀ deleted inserted, OwnedCycles graph (normalize batch).deletions max_cycle_length deleted →
        OwnedCycles (apply_batch graph (normalize batch)) (normalize batch).insertions
          max_cycle_length inserted →
        (do
          let delta ← device_delta inserted deleted max_cycle_length
          apply_histogram_delta histogram delta max_cycle_length) = .ok updated := by
  have hu := hroom.update hvalid hb hmax
  have hclear : (⟨0, Flags.none⟩ : VisitedBuffer).visited = Flags.none := rfl
  obtain ⟨updated, buffer, hrun, hupdated, -⟩ :=
    update_static_histogram_eq hg hmax hu.deleted.few hb h h' hcounted hclear
  refine ⟨updated, hupdated, fun deleted inserted hdeleted hinserted => ?_⟩
  have hfits : ∀ k ∈ List.range' 2 (max_cycle_length - 1),
      Signed (count_difference inserted deleted k) := fun k hk => by
    obtain ⟨hk, hcap⟩ := (mem_lengths hmax).mp hk
    exact count_difference_signed hg hvalid hb hmax hroom h h' hdeleted hinserted hk hcap
  obtain ⟨delta, hdelta⟩ : ∃ delta, device_delta inserted deleted max_cycle_length = .ok delta := by
    rw [device_delta, make_delta_eq hu.deleted.few]
    refine differences_ok hfits (List.replicate (max_cycle_length + 1) 0) fun k hk => ?_
    have hcap := ((mem_lengths hmax).mp hk).2
    rw [owned_cycles_length hu.deleted hdeleted, owned_cycles_length hu.inserted hinserted,
      List.length_replicate]
    omega
  rw [update_static_histogram_host_delta histogram (by omega)] at hrun
  obtain ⟨⟨delta', buffer'⟩, hhost, hrun⟩ := bind_ok hrun
  obtain ⟨histogram', happly, hlast⟩ := bind_ok hrun
  obtain ⟨rfl, -⟩ := Prod.mk.inj (Except.ok.inj hlast)
  rcases host_delta_cases hu.deleted.bounded hu.deleted.rows_bounded
      ((places_eq hu.deleted.few).le.trans hu.deleted.few) hb.vertices hclear with
    hundefined | ⟨_, _, hok, hisdelta, hsigned⟩
  · rw [hundefined] at hhost
    cases hhost
  · obtain ⟨rfl, -⟩ := Prod.mk.inj (Except.ok.inj (hok.symm.trans hhost))
    obtain rfl := hu.delta_eq (Or.inl hroom.vertices) (Or.inl hroom.vertices) hdeleted hinserted
      hdelta hisdelta hsigned
    rw [ok_bind hdelta]
    exact happly

omit hg hvalid hb hmax hroom h h' in
theorem update_on_device_cases {runtime : CudaRuntime} {device_id : Int}
    {histogram : CycleHistogram} {result : Except Error CycleHistogram}
    (hfew : max_cycle_length + 1 ≤ MAX_PLACES)
    (hdevice : runtime.require_device device_id = .ok ())
    (hrun : update_on_device runtime graph histogram batch max_cycle_length device_id result) :
    CallFailed runtime result ∨ ∃ deleted inserted,
      OwnedCycles graph (normalize batch).deletions max_cycle_length deleted ∧
      OwnedCycles (apply_batch graph (normalize batch)) (normalize batch).insertions max_cycle_length
        inserted ∧
      result = (do
        let delta ← device_delta inserted deleted max_cycle_length
        apply_histogram_delta histogram delta max_cycle_length) := by
  unfold update_on_device at hrun
  rw [hdevice] at hrun
  obtain ⟨first, hfirst, hrun⟩ := hrun
  rcases count_owned_cycles_device_cases hfew hfirst with
    ⟨call, text, hgranted, hfails, rfl⟩ | ⟨deleted, hdeleted, rfl⟩
  · exact Or.inl ⟨call, text, hgranted, hfails, hrun⟩
  obtain ⟨second, hsecond, hrun⟩ := hrun
  rcases count_owned_cycles_device_cases hfew hsecond with
    ⟨call, text, hgranted, hfails, rfl⟩ | ⟨inserted, hinserted, rfl⟩
  · exact Or.inl ⟨call, text, hgranted, hfails, hrun⟩
  · exact Or.inr ⟨deleted, inserted, hdeleted, hinserted, hrun⟩

theorem exists_update_on_device {runtime : CudaRuntime} {device_id : Int}
    {histogram : CycleHistogram} (hdevice : runtime.require_device device_id = .ok ())
    (hworks : runtime.Works)
    (hcounted : Counted graph max_cycle_length histogram) :
    ∃ updated, update_on_device runtime graph histogram batch max_cycle_length device_id
      (.ok updated) := by
  have hu := hroom.update hvalid hb hmax
  obtain ⟨updated, -, hdelta⟩ := updates_on_device_counted hg hvalid hb hmax hroom h h' hcounted
  obtain ⟨deleted, hdeleted, hfirst⟩ := exists_device_counts device_id hu.deleted hroom.vertices hworks
  obtain ⟨inserted, hinserted, hsecond⟩ :=
    exists_device_counts device_id hu.inserted hroom.vertices hworks
  refine ⟨updated, ?_⟩
  unfold update_on_device
  rw [hdevice]
  exact ⟨_, hfirst, _, hsecond, (hdelta deleted inserted hdeleted hinserted).symm⟩

end Update

section Exact

variable {graph : DirectedGraph} {batch : EdgeBatch} {max_cycle_length : Nat}
  {runtime : CudaRuntime} {device_id : Int}

theorem update_static_histogram_cuda_iff (hmax : 2 ≤ max_cycle_length) (histogram : CycleHistogram)
    (result : Except Error CycleHistogram) :
    update_static_histogram_cuda (some runtime) graph histogram batch max_cycle_length device_id
        result ↔
      update_on_device runtime graph histogram batch max_cycle_length device_id result := by
  unfold update_static_histogram_cuda
  rw [if_neg (Nat.not_lt.mpr hmax)]

section Recount

variable (hg : graph.WellFormed) (hvalid : graph.Valid) (hb : batch.Fits graph)
  (hmax : 2 ≤ max_cycle_length) (hroom : DeviceRoom graph batch max_cycle_length)
  (h : CountsFit graph max_cycle_length) (h' : CountsFit (apply_batch graph batch) max_cycle_length)
  {histogram : CycleHistogram} (hstart : recount graph max_cycle_length = .ok histogram)
  (hdevice : runtime.require_device device_id = .ok ())

include hg hvalid hb hmax hroom h h' hstart hdevice

theorem device_update_cases {result : Except Error CycleHistogram}
    (hrun : update_static_histogram_cuda (some runtime) graph histogram batch max_cycle_length
      device_id result) :
    CallFailed runtime result ∨ result = recount (apply_batch graph batch) max_cycle_length := by
  have hg' := apply_batch_well_formed hg hb
  obtain ⟨before, hbefore, hcounted⟩ := recount_eq hg hmax h
  obtain rfl : before = histogram := Except.ok.inj (hbefore.symm.trans hstart)
  obtain ⟨after, hafter, hcounted'⟩ := recount_eq hg' hmax h'
  obtain ⟨updated, hupdated, hdelta⟩ := updates_on_device_counted hg hvalid hb hmax hroom
    (h.countable hg) (h'.countable hg') hcounted
  obtain rfl : updated = after := hupdated.unique hcounted'
  have hfew := (hroom.update hvalid hb hmax).deleted.few
  rcases update_on_device_cases hfew hdevice ((update_static_histogram_cuda_iff hmax _ _).mp hrun) with
    hfailed | ⟨deleted, inserted, hdeleted, hinserted, rfl⟩
  · exact Or.inl hfailed
  · refine Or.inr ?_
    rw [hafter]
    exact hdelta deleted inserted hdeleted hinserted

theorem exists_device_update (hworks : runtime.Works) :
    ∃ updated, update_static_histogram_cuda (some runtime) graph histogram batch max_cycle_length
      device_id (.ok updated) := by
  have hg' := apply_batch_well_formed hg hb
  obtain ⟨before, hbefore, hcounted⟩ := recount_eq hg hmax h
  obtain rfl : before = histogram := Except.ok.inj (hbefore.symm.trans hstart)
  simp only [update_static_histogram_cuda_iff hmax]
  exact exists_update_on_device hg hvalid hb hmax hroom (h.countable hg) (h'.countable hg') hdevice
    hworks hcounted

-- Whatever order the items of the two launches run in, the device updates a histogram to
-- what a full count of the new graph gives, or a call of the runtime has failed.
theorem update_static_histogram_cuda_exact :
    (∀ result, update_static_histogram_cuda (some runtime) graph histogram batch max_cycle_length
        device_id result →
      CallFailed runtime result ∨ result = recount (apply_batch graph batch) max_cycle_length) ∧
    (runtime.Works →
      ∃ updated, update_static_histogram_cuda (some runtime) graph histogram batch max_cycle_length
        device_id (.ok updated)) :=
  ⟨fun _ => device_update_cases hg hvalid hb hmax hroom h h' hstart hdevice,
    exists_device_update hg hvalid hb hmax hroom h h' hstart hdevice⟩

end Recount

-- Three edges are inserted into a graph without edges.
theorem update_static_histogram_cuda_exact_sample : ∃ updated,
    update_static_histogram_cuda (some working_runtime) empty_graph ∅
      ⟨[], [⟨2, 0⟩, ⟨0, 1⟩, ⟨1, 2⟩]⟩ 3 0 (.ok updated) ∧
      .ok updated = recount (apply_batch empty_graph ⟨[], [⟨2, 0⟩, ⟨0, 1⟩, ⟨1, 2⟩]⟩) 3 := by
  have hvalid : empty_graph.Valid := ⟨⟨rfl, rfl, by decide, rfl⟩, by decide, by decide⟩
  obtain ⟨hfit, hb, hfit', -⟩ := sample_streamable
  have hexact := @update_static_histogram_cuda_exact _ _ 3 working_runtime 0 empty_graph_well_formed
    hvalid hb (by decide) ⟨by decide, by decide, by decide, by decide⟩ hfit hfit' ∅ (by decide +kernel)
    rfl
  obtain ⟨updated, hupdated⟩ := hexact.2 working_runtime_works
  refine ⟨updated, hupdated, (hexact.1 _ hupdated).resolve_left fun hfailed => ?_⟩
  obtain ⟨call, text, hgranted, hfails, -⟩ := hfailed
  rw [working_runtime_works call hgranted] at hfails
  cases hfails

end Exact

end CycleEnum.Dynamic
