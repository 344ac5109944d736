import CycleEnum.Dynamic.UpdateItems
import CycleEnum.Dynamic.UpdateOpenmp
import Mathlib.Data.Int.ModEq

namespace CycleEnum.Dynamic

open CycleEnum.Cuda CycleEnum.Enumeration CycleEnum.OpenMP CycleEnum.Parallel

-- The grid has blocks of 128 threads, one thread for each change.
def update_threads (work_count : Nat) : Nat := to_uint32 ((work_count + 128 - 1) / 128) * 128

def owned_cycles_program (graph : DirectedGraph) (changes : List EdgeChange) (max_length : Nat) :
    Program UpdateRegister UpdatePools UpdateEvent :=
  count_owned_cycles_kernel graph.offsets graph.neighbors changes (to_int changes.length)
    (to_int max_length) (to_uint32 graph.vertex_count)

-- `cudaMemset` clears the flags and the counts. The stacks hold whatever was there.
structure UpdatePools.Cleared (pools : UpdatePools) : Prop where
  visited : ∀ slot, pools.visited_pool slot = false
  counts : ∀ length, pools.counts length = 0

-- What the kernel comes to in some order of its threads' steps.
def OwnedCyclesRun (graph : DirectedGraph) (changes : List EdgeChange) (max_length : Nat)
    (pools : UpdatePools) (pool : Pool UpdateRegister UpdatePools)
    (trace : List (Nat × UpdateEvent)) : Prop :=
  Reaches (owned_cycles_program graph changes max_length) (update_threads changes.length)
    ⟨fun _ => some .asking, pools⟩ pool trace

def Ended (changes : List EdgeChange) (pool : Pool UpdateRegister UpdatePools) : Prop :=
  ∀ thread < update_threads changes.length, pool.registers thread = none

-- The results of `count_owned_cycles_device` where every call of the runtime works.
def OwnedCycles (graph : DirectedGraph) (changes : List EdgeChange) (max_length : Nat)
    (counts : List Nat) : Prop :=
  if changes.isEmpty ∨ graph.vertex_count = 0 then counts = List.replicate (places max_length) 0
  else ∃ pools pool trace, pools.Cleared ∧
    OwnedCyclesRun graph changes max_length pools pool trace ∧ Ended changes pool ∧
    counts = (List.range (places max_length)).map pool.memory.counts

-- `static_cast<long long>(inserted[length]) - static_cast<long long>(deleted[length])`
def count_difference (inserted deleted : List Nat) (length : Nat) : Int :=
  to_signed (inserted.getD length 0) - to_signed (deleted.getD length 0)

def write_difference (inserted deleted : List Nat) (delta : List Int) (length : Nat) :
    Except Error (List Int) := do
  if inserted.length ≤ length ∨ deleted.length ≤ length ∨ delta.length ≤ length then
    throw .undefined
  return delta.set length (← signed (count_difference inserted deleted length))

def device_delta (inserted deleted : List Nat) (max_cycle_length : Nat) :
    Except Error (List Int) := do
  let delta ← make_delta max_cycle_length
  (List.range' 2 (max_cycle_length - 1)).foldlM (write_difference inserted deleted) delta

-- The results of `update_static_histogram_cuda` on such a device.
def UpdatesOnDevice (initial_graph : DirectedGraph) (initial_histogram : CycleHistogram)
    (batch : EdgeBatch) (max_cycle_length : Nat) (result : Except Error CycleHistogram) : Prop :=
  if max_cycle_length < 2 then
    result = .error (.invalid_argument "max_cycle_length must be at least 2")
  else
    match make_vector Nat max_cycle_length with
    | .error error => result = .error error
    | .ok _ =>
        let normalized := normalize batch
        ∃ deleted inserted, OwnedCycles initial_graph normalized.deletions max_cycle_length deleted ∧
          OwnedCycles (apply_batch initial_graph normalized) normalized.insertions max_cycle_length
            inserted ∧
          result = do
            let delta ← device_delta inserted deleted max_cycle_length
            apply_histogram_delta initial_histogram delta max_cycle_length

-- The delta that one thread of the host comes to.
def host_delta (initial_graph : DirectedGraph) (batch : EdgeBatch) (max_cycle_length : Nat)
    (buffer : VisitedBuffer) : Except Error (List Int × VisitedBuffer) := do
  let normalized := normalize batch
  let delta ← make_delta max_cycle_length
  let (delta, buffer) ← accumulate_phase initial_graph normalized.deletions max_cycle_length (-1)
    delta buffer
  accumulate_phase (apply_batch initial_graph normalized) normalized.insertions max_cycle_length 1
    delta buffer

-- The kernel and the host agree on the changes of a phase: in every order of the steps
-- no item leaves its own slots, all items end, and then the counts are those of the
-- owners of the host together.
structure KernelAgrees (graph : DirectedGraph) (changes : List EdgeChange) (max_length : Nat) :
    Prop where
  own_regions : ∀ pools pool trace, pools.Cleared →
    OwnedCyclesRun graph changes max_length pools pool trace →
      ∀ item ∈ trace, ItemEvent graph changes max_length item.1 item.2
  ends : ∀ pools, pools.Cleared → Ends (owned_cycles_program graph changes max_length)
    (update_threads changes.length) ⟨fun _ => some .asking, pools⟩
  counts : ∀ pools pool trace, pools.Cleared →
    OwnedCyclesRun graph changes max_length pools pool trace → Ended changes pool →
      ∀ buffer, buffer.visited = Flags.none → ∃ counts buffer',
        count_owners graph changes max_length (List.replicate (max_length + 1) 0) buffer =
            .ok (counts, buffer') ∧
          ∀ k, 2 ≤ k → k ≤ max_length → pool.memory.counts k = counts.getD k 0

section Kernel

variable {graph : DirectedGraph} {changes : List EdgeChange} {max_length : Nat}

theorem update_threads_bounds (hsmall : changes.length < 2 ^ 30) :
    changes.length ≤ update_threads changes.length ∧ update_threads changes.length ≤ 2 ^ 31 := by
  have hblocks : (changes.length + 128 - 1) / 128 < 2 ^ 32 := by omega
  rw [update_threads, to_uint32, Nat.mod_eq_of_lt hblocks]
  omega

-- What all owners count together.
def owned_total (graph : DirectedGraph) (changes : List EdgeChange) (max_length k : Nat) : Nat :=
  (changes.zipIdx.map fun round =>
    (owned_closings graph changes max_length round.1 round.2).countP (·.length = k)).sum

theorem pending_total {threads : Nat} (h : changes.length ≤ threads) (pools : UpdatePools) (k : Nat) :
    Pool.total threads (fun work register pools =>
        (update_pending graph changes max_length work register pools).count k)
      ⟨fun _ => some .asking, pools⟩ = owned_total graph changes max_length k := by
  have hlength : changes.zipIdx.length ≤ threads := by rwa [List.length_zipIdx]
  rw [owned_total, ← sum_items hlength]
  refine Finset.sum_congr rfl fun work _ => ?_
  simp only [Option.elim_some, update_pending, List.getElem?_zipIdx]
  cases changes[work]? with
  | none => rfl
  | some change =>
      simp only [Option.elim_some, Option.map_some, Nat.zero_add, List.count_eq_countP,
        List.countP_map]
      rfl

-- The counts are those of the events, as far as a word goes.
theorem kernel_counts {pools : UpdatePools} {pool : Pool UpdateRegister UpdatePools}
    {trace : List (Nat × UpdateEvent)} (hclear : pools.Cleared)
    (hr : OwnedCyclesRun graph changes max_length pools pool trace) (k : Nat) :
    pool.memory.counts k =
      (trace.filterMap fun item => item.2.bin).count k % 2 ^ 64 := by
  have hcell := @Reaches.cell_eq _ _ _ _ _ UpdateEvent.bin _ _ _ (fun pools => pools.counts k)
    (2 ^ 64) k hr (by simp [hclear.counts]) ?_
  · simpa [hclear.counts] using hcell
  · exact fun thread register pools hword => kernel_step_counts thread register hword

variable (hp : DevicePhase graph changes max_length)

include hp

-- The owners of the host, one after the other.
theorem count_owners_total {buffer : VisitedBuffer} (hclear : buffer.visited = Flags.none) :
    ∃ counts buffer', count_owners graph changes max_length (List.replicate (max_length + 1) 0)
        buffer = .ok (counts, buffer') ∧ ∀ k, 2 ≤ k → k ≤ max_length →
          counts.getD k 0 = owned_total graph changes max_length k % 2 ^ 64 := by
  obtain ⟨buffer', hrun, -⟩ := count_rounds_eq max_length hp.bounded hp.vertices changes.zipIdx
    (fun round hr => List.fst_mem_of_mem_zipIdx hr) (List.replicate (max_length + 1) 0) hclear
  refine ⟨_, buffer', hrun, fun k hk hcap => ?_⟩
  have hzero : (List.replicate (max_length + 1) 0).getD k 0 = 0 := by
    rw [List.getD_replicate]
    omega
  rw [count_all_getD_mod _ _ (by rw [List.length_replicate]; omega) (by rw [hzero]; omega), hzero,
    Nat.zero_add, List.countP_flatMap]
  rfl

section Agrees

variable (hstride : graph.vertex_count < 2 ^ 32 ∨ changes.length ≤ 1)

include hstride

theorem kernel_items :
    Items (owned_cycles_program graph changes max_length) (update_threads changes.length)
      (UpdatePools.Same graph max_length) (UpdateGood graph changes max_length) UpdateEvent.bin
      (ItemEvent graph changes max_length) (update_pending graph changes max_length)
      (update_left graph max_length) := by
  rw [owned_cycles_program, hp.int_eq]
  exact update_items hp hstride (update_threads_bounds hp.length_lt).2

omit hp hstride in
theorem start_good {pools : UpdatePools} (hclear : pools.Cleared) (threads : Nat) :
    AllGood threads (UpdateGood graph changes max_length) ⟨fun _ => some .asking, pools⟩ := by
  intro work _ register hregister
  obtain rfl := Option.some.inj hregister
  intro v _
  simp [hclear.visited]

-- When all items have ended, the counts are those of all owners.
theorem kernel_counts_total {pools : UpdatePools} {pool : Pool UpdateRegister UpdatePools}
    {trace : List (Nat × UpdateEvent)} (hclear : pools.Cleared)
    (hr : OwnedCyclesRun graph changes max_length pools pool trace) (hdone : Ended changes pool)
    (k : Nat) : pool.memory.counts k = owned_total graph changes max_length k % 2 ^ 64 := by
  have hthreads := (update_threads_bounds hp.length_lt).1
  rw [kernel_counts hclear hr, (kernel_items hp hstride).finished (start_good hclear _) hr hdone,
    pending_total hthreads]

theorem kernel_agrees : KernelAgrees graph changes max_length where
  own_regions pools pool trace hclear hr item hi :=
    ((kernel_items hp hstride).accesses (start_good hclear _) hr item hi).2
  ends pools hclear := (kernel_items hp hstride).ends (start_good hclear _)
  counts pools pool trace hclear hr hdone buffer hbuffer := by
    obtain ⟨counts, buffer', hrun, hcounts⟩ := count_owners_total hp hbuffer
    refine ⟨counts, buffer', hrun, fun k hk hcap => ?_⟩
    rw [hcounts k hk hcap]
    exact kernel_counts_total hp hstride hclear hr hdone k

end Agrees

-- With a cut vertex count the second item flags the source of its change among the flags
-- of the first.
theorem own_regions_overlap (hwide : 2 ^ 32 ≤ graph.vertex_count) (hmany : 2 ≤ changes.length) :
    ¬KernelAgrees graph changes max_length := by
  intro h
  have hthreads := (update_threads_bounds hp.length_lt).1
  have hlaunched : 1 < update_threads changes.length := by omega
  obtain ⟨change, mine⟩ : ∃ change, changes[1]? = some change :=
    ⟨_, List.getElem?_eq_getElem (by omega)⟩
  obtain ⟨pools, hclear⟩ : ∃ pools : UpdatePools, pools.Cleared :=
    ⟨⟨fun _ => 0, fun _ => 0, fun _ => false, fun _ => 0⟩, fun _ => rfl, fun _ => rfl⟩
  have hcount : to_int changes.length = changes.length := to_int_eq (by
    have := hp.length_lt
    omega)
  have hfirst : owned_cycles_program graph changes max_length 1 .asking pools =
      search_start graph.offsets (to_int max_length) (to_uint32 graph.vertex_count) 1 change
        pools := by
    have hwork : to_int 1 = 1 := to_int_eq (by decide)
    have hread : change_at changes 1 = some change := mine
    unfold owned_cycles_program count_owned_cycles_kernel
    dsimp only
    rw [hcount, hwork, if_neg (by omega), hread]
  have hstart : OwnedCyclesRun graph changes max_length pools ⟨fun _ => some .asking, pools⟩ [] :=
    .start
  have hreached := hstart.step hlaunched rfl
  have hown := h.own_regions pools _ _ hclear hreached
    (1, .flag (wrap (wrap (1 * to_uint32 graph.vertex_count) + change.source))) (by
      rw [hfirst]
      simp [search_start])
  have hlow : 1 * graph.vertex_count ≤
      wrap (wrap (1 * to_uint32 graph.vertex_count) + change.source) := hown.2.1
  have hsource := (hp.ids change (List.mem_of_getElem? mine)).1
  have hle : wrap (wrap (1 * to_uint32 graph.vertex_count) + change.source) ≤
      to_uint32 graph.vertex_count + change.source := by
    rw [wrap_add, Nat.one_mul]
    exact Nat.mod_le _ _
  have hcut : to_uint32 graph.vertex_count + 2 ^ 32 ≤ graph.vertex_count := by
    unfold to_uint32
    omega
  omega

theorem kernel_agrees_iff : KernelAgrees graph changes max_length ↔
    graph.vertex_count < 2 ^ 32 ∨ changes.length ≤ 1 := by
  constructor
  · intro h
    by_contra hnot
    obtain ⟨hwide, hmany⟩ := not_or.mp hnot
    exact own_regions_overlap hp (by omega) (by omega) h
  · exact kernel_agrees hp

theorem owned_cycles_counts (hstride : graph.vertex_count < 2 ^ 32 ∨ changes.length ≤ 1)
    {counts : List Nat} (h : OwnedCycles graph changes max_length counts) {k : Nat}
    (hk : k ≤ max_length) :
    counts.getD k 0 = owned_total graph changes max_length k % 2 ^ 64 := by
  unfold OwnedCycles at h
  split_ifs at h with hidle
  · have hnone : changes = [] := by
      rcases hidle with hempty | hzero
      · exact List.isEmpty_iff.mp hempty
      · cases changes with
        | nil => rfl
        | cons change changes =>
            have := (hp.vertices change List.mem_cons_self).1
            omega
    rw [h, hnone, places_eq hp.few, List.getD_replicate _ (by omega)]
    rfl
  · obtain ⟨pools, pool, trace, hclear, hr, hdone, rfl⟩ := h
    rw [List.getD_eq_getElem _ _ (by simpa [places_eq hp.few] using Nat.lt_succ_of_le hk),
      List.getElem_map,
      List.getElem_range, kernel_counts_total hp hstride hclear hr hdone]

end Kernel

section Delta

theorem to_signed_modEq (count : Nat) : to_signed count ≡ count [ZMOD 2 ^ 64] := by
  have h : ((2 ^ 64 : Nat) : Int) ∣ count - to_signed count := Int.dvd_self_sub_bmod
  rw [Nat.cast_pow, Nat.cast_ofNat] at h
  exact Int.modEq_iff_dvd.mpr h

theorem to_signed_mod_modEq (count : Nat) : to_signed (count % 2 ^ 64) ≡ count [ZMOD 2 ^ 64] := by
  have hmod : ((count % 2 ^ 64 : Nat) : Int) ≡ count [ZMOD 2 ^ 64] := by
    rw [Int.natCast_mod, Nat.cast_pow, Nat.cast_ofNat]
    exact Int.mod_modEq _ _
  exact (to_signed_modEq _).trans hmod

-- Two values of the type `long long` that agree on their low bits are equal.
theorem signed_eq_of_modEq {a b : Int} (ha : Signed a) (hb : Signed b) (h : a ≡ b [ZMOD 2 ^ 64]) :
    a = b := by
  obtain ⟨ha₁, ha₂⟩ := ha
  obtain ⟨hb₁, hb₂⟩ := hb
  obtain ⟨c, hc⟩ := h.dvd
  omega

theorem signed_of_ok {value result : Int} (h : signed value = .ok result) :
    Signed value ∧ result = value := by
  unfold signed at h
  split_ifs at h with hsigned
  exact ⟨hsigned, (Except.ok.inj h).symm⟩

def AllSigned (delta : List Int) : Prop := ∀ k, Signed (delta.getD k 0)

-- What the host adds to a delta stays in the range of `long long`.
theorem add_counts_signed {sign : Int} {counts : List Nat} (delta : List Int) (length : Nat)
    (next : List Int) (hsigned : AllSigned delta) (h : add_counts sign counts delta length = .ok next) :
    AllSigned next := by
  unfold add_counts at h
  split_ifs at h
  · cases h
  obtain ⟨change, -, hnext⟩ := bind_ok h
  obtain ⟨value, hvalue, hset⟩ := bind_ok hnext
  obtain rfl := Except.ok.inj hset
  intro k
  rw [List.getD_eq_getElem?_getD, List.getElem?_set]
  split_ifs
  · obtain ⟨hfits, rfl⟩ := signed_of_ok hvalue
    exact hfits
  · exact ⟨by simp, by simp⟩
  · rw [← List.getD_eq_getElem?_getD]
    exact hsigned k

theorem accumulate_phase_signed {graph : DirectedGraph} {changes : List EdgeChange}
    {max_length : Nat} {sign : Int} {delta delta' : List Int} {buffer buffer' : VisitedBuffer}
    (hsigned : AllSigned delta)
    (h : accumulate_phase graph changes max_length sign delta buffer = .ok (delta', buffer')) :
    AllSigned delta' := by
  refine @foldlM_keeps _ _ _ (fun mine => AllSigned mine.1) _ _ _ _ ?_ hsigned h
  rintro ⟨delta, buffer⟩ ⟨change, owner_id⟩ next hmine hnext
  obtain ⟨⟨counts, buffer₁⟩, -, hnext⟩ := bind_ok hnext
  obtain ⟨delta₁, hadd, hnext⟩ := bind_ok hnext
  obtain rfl := Except.ok.inj hnext
  exact foldlM_keeps add_counts_signed hmine hadd

variable {inserted deleted : List Nat} {max_cycle_length : Nat}

-- The loop of the device's delta comes to its end only if every difference fits.
theorem differences_fit {lengths : List Nat} {delta delta' : List Int}
    (h : lengths.foldlM (write_difference inserted deleted) delta = .ok delta') :
    ∀ k ∈ lengths, (k < inserted.length ∧ k < deleted.length) ∧
      Signed (count_difference inserted deleted k) := by
  induction lengths generalizing delta with
  | nil => simp
  | cons length lengths ih =>
      rw [List.foldlM_cons] at h
      obtain ⟨next, hnext, hrest⟩ := bind_ok h
      unfold write_difference at hnext
      split_ifs at hnext with hbeyond
      · cases hnext
      obtain ⟨value, hvalue, -⟩ := bind_ok hnext
      intro k hk
      rcases List.mem_cons.mp hk with rfl | hk
      · exact ⟨by omega, (signed_of_ok hvalue).1⟩
      · exact ih hrest k hk

theorem differences_cases (lengths : List Nat) (delta : List Int) :
    lengths.foldlM (write_difference inserted deleted) delta = .error .undefined ∨
      ∃ delta', lengths.foldlM (write_difference inserted deleted) delta = .ok delta' := by
  induction lengths generalizing delta with
  | nil => exact Or.inr ⟨delta, rfl⟩
  | cons length lengths ih =>
      rw [List.foldlM_cons, write_difference]
      by_cases hbeyond : inserted.length ≤ length ∨ deleted.length ≤ length ∨ delta.length ≤ length
      · rw [if_pos hbeyond]
        exact Or.inl rfl
      rw [if_neg hbeyond]
      rcases signed_cases (count_difference inserted deleted length) with hundefined | hfits
      · rw [hundefined]
        exact Or.inl rfl
      · rw [hfits]
        exact ih _

theorem device_delta_ok (hmax : 2 ≤ max_cycle_length) (hfew : max_cycle_length + 1 ≤ MAX_PLACES)
    {delta : List Int} (h : device_delta inserted deleted max_cycle_length = .ok delta) :
    delta.length = max_cycle_length + 1 ∧
      (∀ k, 2 ≤ k → k ≤ max_cycle_length → Signed (count_difference inserted deleted k)) ∧
      delta_total delta = at_lengths max_cycle_length (count_difference inserted deleted) := by
  rw [device_delta, make_delta_eq hfew] at h
  have hfits := differences_fit h
  have hstep : ∀ k ∈ List.range' 2 (max_cycle_length - 1), ∀ delta : List Int,
      delta.length = (List.replicate (max_cycle_length + 1) (0 : Int)).length →
      delta.getD k 0 = (List.replicate (max_cycle_length + 1) (0 : Int)).getD k 0 →
        write_difference inserted deleted delta k =
          .ok (delta.set k (count_difference inserted deleted k)) := by
    intro k hk delta hlength _
    obtain ⟨hinside, hsigned⟩ := hfits k hk
    have hcap := ((mem_lengths hmax).mp hk).2
    rw [List.length_replicate] at hlength
    rw [write_difference, if_neg (by omega), signed_ok hsigned]
    rfl
  obtain ⟨delta', hrun, hlength, hvalue⟩ := foldlM_set List.nodup_range'
    (fun k _ => count_difference inserted deleted k) (List.replicate (max_cycle_length + 1) 0)
    (fun k hk => by
      have := (mem_lengths hmax).mp hk
      rw [List.length_replicate]
      omega) hstep
  obtain rfl : delta' = delta := Except.ok.inj (hrun.symm.trans h)
  refine ⟨by rw [hlength, List.length_replicate], fun k hk hcap =>
    (hfits k ((mem_lengths hmax).mpr ⟨hk, hcap⟩)).2, ?_⟩
  funext k
  rw [delta_total, hvalue, at_lengths]
  simp only [mem_lengths hmax]
  split_ifs
  · rfl
  · simp

-- What a phase adds, seen in the low bits.
theorem phase_amount_modEq (graph : DirectedGraph) (changes : List EdgeChange) (sign : Int)
    {max_length k : Nat} (hplaces : places max_length = max_length + 1) (hk : 2 ≤ k)
    (hcap : k ≤ max_length) : phase_amount graph changes max_length sign k ≡
      sign * owned_total graph changes max_length k [ZMOD 2 ^ 64] := by
  have hrounds : ∀ rounds : List (EdgeChange × Nat),
      (∀ round ∈ rounds, changes[round.2]? = some round.1) →
      (rounds.map fun round => owner_amount graph changes max_length sign round.2).sum k ≡
        sign * ((rounds.map fun round => (owned_closings graph changes max_length round.1
          round.2).countP (·.length = k)).sum : Nat) [ZMOD 2 ^ 64] := by
    intro rounds hrounds
    induction rounds with
    | nil => simp
    | cons round rounds ih =>
        have hzero : (List.replicate (max_length + 1) 0).getD k 0 = 0 := by
          rw [List.getD_replicate]
          omega
        have hone : owner_amount graph changes max_length sign round.2 k ≡
            sign * ((owned_closings graph changes max_length round.1 round.2).countP
              (·.length = k) : Nat) [ZMOD 2 ^ 64] := by
          rw [owner_amount, hplaces, at_lengths, if_pos ⟨hk, hcap⟩, hrounds round List.mem_cons_self,
            Option.elim_some, count_all_getD_mod _ _ (by rw [List.length_replicate]; omega)
              (by rw [hzero]; omega), hzero, Nat.zero_add]
          exact (to_signed_mod_modEq _).mul_left sign
        rw [List.map_cons, List.sum_cons, List.map_cons, List.sum_cons, Pi.add_apply, Nat.cast_add,
          Int.mul_add]
        exact hone.add (ih fun r hr => hrounds r (List.mem_cons_of_mem _ hr))
  rw [← phase_amount_rounds, owned_total]
  exact hrounds changes.zipIdx fun round hr => List.mk_mem_zipIdx_iff_getElem?.mp hr

variable {graph : DirectedGraph} {batch : EdgeBatch}

-- The host's delta is undefined, or the one that its phases add up to.
theorem host_delta_cases (hread : ∀ a, ∀ next ∈ graph.read_row a, next < graph.vertex_count)
    (hrows : ∀ a, ∀ next ∈ graph.row a, next < graph.vertex_count)
    (hplaced : places max_cycle_length ≤ MAX_PLACES)
    (hvertices : ∀ change ∈ batch.deletions ++ batch.insertions,
      change.source < graph.vertex_count ∧ change.target < graph.vertex_count)
    {buffer : VisitedBuffer} (hclear : buffer.visited = Flags.none) :
    host_delta graph batch max_cycle_length buffer = .error .undefined ∨
      ∃ delta buffer', host_delta graph batch max_cycle_length buffer = .ok (delta, buffer') ∧
        IsDelta graph batch max_cycle_length delta ∧ AllSigned delta := by
  have hchanges := normalized_vertices hvertices
  unfold host_delta
  rw [make_delta_placed hplaced]
  rcases accumulate_phase_adds (-1) hread
      (fun change hm => hchanges change (List.mem_append_left _ hm))
      (List.length_replicate (n := places max_cycle_length) (a := 0)) hclear with
    hundefined | ⟨delta₁, buffer₁, hrun₁, hlength₁, hclear₁, htotal₁⟩
  · refine Or.inl ?_
    change Except.bind (accumulate_phase _ _ _ _ _ _) _ = _
    rw [hundefined]
    rfl
  rcases accumulate_phase_adds 1 (normalized_read_row_bounded hrows hvertices)
      (fun change hm => hchanges change (List.mem_append_right _ hm)) hlength₁ hclear₁ with
    hundefined | ⟨delta₂, buffer₂, hrun₂, hlength₂, -, htotal₂⟩
  · refine Or.inl ?_
    change Except.bind (accumulate_phase _ _ _ _ _ _) _ = _
    rw [hrun₁]
    exact hundefined
  · have hzero : AllSigned (List.replicate (places max_cycle_length) 0) := fun k => by
      change Signed (delta_total _ k)
      rw [delta_total_zero]
      exact ⟨by simp, by simp⟩
    refine Or.inr ⟨delta₂, buffer₂, ?_, ⟨hlength₂, ?_⟩,
      accumulate_phase_signed (accumulate_phase_signed hzero hrun₁) hrun₂⟩
    · change Except.bind (accumulate_phase _ _ _ _ _ _) _ = _
      rw [hrun₁]
      exact hrun₂
    · rw [htotal₂, htotal₁, delta_total_zero, zero_add]
      rfl

theorem update_static_histogram_host_delta (histogram : CycleHistogram)
    (hmax : ¬max_cycle_length < 2) (buffer : VisitedBuffer) :
    update_static_histogram graph histogram batch max_cycle_length buffer = (do
      let (delta, buffer) ← host_delta graph batch max_cycle_length buffer
      let histogram ← apply_histogram_delta histogram delta max_cycle_length
      return (histogram, buffer)) := by
  rw [update_static_histogram, if_neg hmax, host_delta]
  cases make_delta max_cycle_length with
  | error error => rfl
  | ok delta =>
      change Except.bind (accumulate_phase _ _ _ _ delta _) _ =
        Except.bind (Except.bind (accumulate_phase _ _ _ _ delta _) _) _
      cases accumulate_phase graph (normalize batch).deletions max_cycle_length (-1) delta
        buffer with
      | error error => rfl
      | ok first => rfl

end Delta

section Update

-- What the host relies on when it updates a histogram on the device.
structure DeviceUpdate (graph : DirectedGraph) (batch : EdgeBatch) (max_cycle_length : Nat) :
    Prop where
  valid : graph.Valid
  row_ids : ∀ next ∈ graph.neighbors, next < 2 ^ 32
  vertices : ∀ change ∈ batch.deletions ++ batch.insertions,
    change.source < graph.vertex_count ∧ change.target < graph.vertex_count
  ids : ∀ change ∈ batch.deletions ++ batch.insertions, change.source < 2 ^ 32 ∧ change.target < 2 ^ 32
  min_length : 2 ≤ max_cycle_length
  max_length : max_cycle_length ≤ INT_MAX
  deletions_allocated : (normalize batch).deletions.length * graph.vertex_count < 2 ^ 45
  insertions_allocated : (normalize batch).insertions.length * graph.vertex_count < 2 ^ 45

-- Host and device agree on an update: on the changes of both phases, on the delta, and on
-- the result, unless one of them leaves the range of `long long`.
structure UpdateAgrees (graph : DirectedGraph) (batch : EdgeBatch) (max_cycle_length : Nat) :
    Prop where
  deleted : KernelAgrees graph (normalize batch).deletions max_cycle_length
  inserted : KernelAgrees (apply_batch graph (normalize batch)) (normalize batch).insertions
    max_cycle_length
  delta : ∀ deleted inserted delta delta' buffer buffer',
    OwnedCycles graph (normalize batch).deletions max_cycle_length deleted →
    OwnedCycles (apply_batch graph (normalize batch)) (normalize batch).insertions max_cycle_length
      inserted →
    device_delta inserted deleted max_cycle_length = .ok delta →
    buffer.visited = Flags.none →
    host_delta graph batch max_cycle_length buffer = .ok (delta', buffer') → delta = delta'
  result : ∀ histogram result buffer,
    UpdatesOnDevice graph histogram batch max_cycle_length result → result ≠ .error .undefined →
    buffer.visited = Flags.none →
    update_static_histogram graph histogram batch max_cycle_length buffer ≠ .error .undefined →
    result = (update_static_histogram graph histogram batch max_cycle_length buffer).map (·.1)

variable {graph : DirectedGraph} {batch : EdgeBatch} {max_cycle_length : Nat}

namespace DeviceUpdate

variable (hu : DeviceUpdate graph batch max_cycle_length)

include hu

theorem deleted : DevicePhase graph (normalize batch).deletions max_cycle_length where
  valid := hu.valid
  row_ids := hu.row_ids
  sorted := sort_and_dedup_ascending batch.deletions
  vertices change hm :=
    normalized_vertices hu.vertices change (List.mem_append_left _ hm)
  ids change hm := hu.ids change (List.mem_append_left _ (mem_sort_and_dedup.mp hm))
  min_length := hu.min_length
  max_length := hu.max_length
  allocated := hu.deletions_allocated

theorem inserted : DevicePhase (apply_batch graph (normalize batch)) (normalize batch).insertions
    max_cycle_length where
  valid := apply_batch_valid hu.valid (normalized_vertices hu.vertices)
  row_ids next hn := by
    rcases mem_apply_batch_neighbors hu.valid (fun change hm =>
      (normalized_vertices hu.vertices change (List.mem_append_right _ hm)).1) hn with
      hold | ⟨change, hins, rfl⟩
    · exact hu.row_ids next hold
    · exact (hu.ids change (List.mem_append_right _ (mem_sort_and_dedup.mp hins))).2
  sorted := sort_and_dedup_ascending batch.insertions
  vertices change hm :=
    normalized_vertices hu.vertices change (List.mem_append_right _ hm)
  ids change hm := hu.ids change (List.mem_append_right _ (mem_sort_and_dedup.mp hm))
  min_length := hu.min_length
  max_length := hu.max_length
  allocated := hu.insertions_allocated

variable (hdeletions : graph.vertex_count < 2 ^ 32 ∨ (normalize batch).deletions.length ≤ 1)
  (hinsertions : graph.vertex_count < 2 ^ 32 ∨ (normalize batch).insertions.length ≤ 1)

include hdeletions hinsertions

-- The deltas of device and host agree in their low bits, so where both are defined they
-- agree.
theorem delta_eq {deleted inserted : List Nat} {delta delta' : List Int}
    (hdeleted : OwnedCycles graph (normalize batch).deletions max_cycle_length deleted)
    (hinserted : OwnedCycles (apply_batch graph (normalize batch)) (normalize batch).insertions
      max_cycle_length inserted)
    (hdevice : device_delta inserted deleted max_cycle_length = .ok delta)
    (hhost : IsDelta graph batch max_cycle_length delta') (hsigned : AllSigned delta') :
    delta = delta' := by
  obtain ⟨hlength, hfits, htotal⟩ := device_delta_ok hu.min_length hu.deleted.few hdevice
  have hsize := (places_eq hu.deleted.few).symm.trans hhost.length.symm
  refine delta_ext (hlength.trans hsize) (htotal.trans ?_)
  rw [hhost.total]
  funext k
  by_cases hk : 2 ≤ k ∧ k ≤ max_cycle_length
  · obtain ⟨hk, hcap⟩ := hk
    rw [at_lengths, if_pos ⟨hk, hcap⟩]
    have hlow : count_difference inserted deleted k ≡
        update_amount graph batch max_cycle_length k [ZMOD 2 ^ 64] := by
      have hminus := phase_amount_modEq graph (normalize batch).deletions (-1)
        (places_eq hu.deleted.few) hk hcap
      have hplus := phase_amount_modEq (apply_batch graph (normalize batch))
        (normalize batch).insertions 1 (places_eq hu.deleted.few) hk hcap
      rw [count_difference, owned_cycles_counts hu.deleted hdeletions hdeleted hcap,
        owned_cycles_counts hu.inserted hinsertions hinserted hcap, update_amount, Pi.add_apply,
        Int.add_comm, Int.sub_eq_add_neg]
      refine ((to_signed_mod_modEq _).add (to_signed_mod_modEq _).neg).trans ?_
      rw [Int.one_mul] at hplus
      rw [Int.neg_mul, Int.one_mul] at hminus
      exact (hplus.add hminus).symm
    refine signed_eq_of_modEq (hfits k hk hcap) ?_ hlow
    rw [← hhost.total]
    exact hsigned k
  · rw [update_amount, ← at_lengths_phase_amount, ← at_lengths_phase_amount (apply_batch _ _),
      Pi.add_apply, at_lengths, at_lengths, at_lengths, if_neg hk, if_neg hk, if_neg hk, Int.add_zero]

theorem update_agrees : UpdateAgrees graph batch max_cycle_length where
  deleted := kernel_agrees hu.deleted hdeletions
  inserted := kernel_agrees hu.inserted hinsertions
  delta deleted inserted delta delta' buffer buffer' hdeleted hinserted hdevice hclear hrun := by
    rcases host_delta_cases hu.deleted.bounded hu.deleted.rows_bounded
      ((places_eq hu.deleted.few).le.trans hu.deleted.few) hu.vertices hclear with
      hundefined | ⟨_, _, hok, hhost, hsigned⟩
    · rw [hundefined] at hrun
      cases hrun
    · obtain ⟨rfl, -⟩ := Prod.mk.inj (Except.ok.inj (hok.symm.trans hrun))
      exact hu.delta_eq hdeletions hinsertions hdeleted hinserted hdevice hhost hsigned
  result histogram result buffer hresult hdefined hclear hhost_defined := by
    have hmax : ¬max_cycle_length < 2 := Nat.not_lt.mpr hu.min_length
    rw [UpdatesOnDevice, if_neg hmax, make_vector_eq hu.deleted.few] at hresult
    obtain ⟨deleted, inserted, hdeleted, hinserted, rfl⟩ := hresult
    rw [update_static_histogram_host_delta histogram hmax] at hhost_defined ⊢
    rcases host_delta_cases hu.deleted.bounded hu.deleted.rows_bounded
      ((places_eq hu.deleted.few).le.trans hu.deleted.few) hu.vertices hclear with
      hundefined | ⟨delta', buffer', hok, hhost, hsigned⟩
    · rw [hundefined] at hhost_defined
      exact absurd rfl hhost_defined
    have hdevice_cases : device_delta inserted deleted max_cycle_length = .error .undefined ∨
        ∃ delta, device_delta inserted deleted max_cycle_length = .ok delta := by
      rw [device_delta, make_delta_eq hu.deleted.few]
      exact differences_cases _ _
    rcases hdevice_cases with hundefined | ⟨delta, hdevice⟩
    · rw [hundefined] at hdefined
      exact absurd rfl hdefined
    obtain rfl := hu.delta_eq hdeletions hinsertions hdeleted hinserted hdevice hhost hsigned
    rw [ok_bind hok, ok_bind hdevice]
    dsimp only
    cases apply_histogram_delta histogram delta max_cycle_length with
    | error error => rfl
    | ok updated => rfl

end DeviceUpdate

-- The kernel counts what the owners of the host count, each item in its own slots, exactly
-- if the flags of the items lie apart: the vertex count must fit 32 bits, unless there is
-- one item.
theorem count_owned_cycles_kernel_agrees_iff (max_length : Nat) :
    (∀ graph changes, DevicePhase graph changes max_length →
      (KernelAgrees graph changes max_length ↔
        graph.vertex_count < 2 ^ 32 ∨ changes.length ≤ 1)) ∧
    ∀ graph batch, DeviceUpdate graph batch max_length →
      (UpdateAgrees graph batch max_length ↔ graph.vertex_count < 2 ^ 32 ∨
        (normalize batch).deletions.length ≤ 1 ∧ (normalize batch).insertions.length ≤ 1) := by
  refine ⟨fun graph changes hp => kernel_agrees_iff hp, fun graph batch hu => ?_⟩
  constructor
  · intro h
    have hdeletions := (kernel_agrees_iff hu.deleted).mp h.deleted
    have hinsertions := (kernel_agrees_iff hu.inserted).mp h.inserted
    rw [apply_batch_vertex_count] at hinsertions
    omega
  · intro h
    exact hu.update_agrees (h.imp_right And.left) (h.imp_right And.right)

end Update

section Sample

theorem ring_graph_valid : ring_graph.Valid where
  offsets := ⟨rfl, rfl, by decide, rfl⟩
  ascending := by decide
  bounded := by decide

theorem count_owned_cycles_kernel_agrees_iff_sample :
    (KernelAgrees ring_graph [⟨0, 1⟩, ⟨1, 1⟩, ⟨2, 0⟩] 3 ↔
      ring_graph.vertex_count < 2 ^ 32 ∨ [(⟨0, 1⟩ : EdgeChange), ⟨1, 1⟩, ⟨2, 0⟩].length ≤ 1) ∧
    (UpdateAgrees ring_graph ring_batch 3 ↔ ring_graph.vertex_count < 2 ^ 32 ∨
      (normalize ring_batch).deletions.length ≤ 1 ∧ (normalize ring_batch).insertions.length ≤ 1) :=
  ⟨(count_owned_cycles_kernel_agrees_iff 3).1 _ _ ⟨ring_graph_valid, by decide, by decide, by decide,
      by decide, by decide, by decide, by decide⟩,
    (count_owned_cycles_kernel_agrees_iff 3).2 _ _ ⟨ring_graph_valid, by decide, by decide, by decide,
      by decide, by decide, by decide, by decide⟩⟩

-- The edges 0 → 1, 0 → 2, 2 → 3 and 3 → 0 between the first of some vertices.
def four_edges (vertex_count : Nat) : DirectedGraph where
  vertex_count := vertex_count
  offsets := [0, 2, 2, 3] ++ List.replicate (vertex_count - 3) 4
  neighbors := [1, 2, 3, 0]

theorem four_edges_offset {vertex_count v : Nat} (hv : 4 ≤ v) (hend : v ≤ vertex_count) :
    (four_edges vertex_count).offsets[v]? = some 4 := by
  have hright : [0, 2, 2, 3].length ≤ v := hv
  rw [four_edges, List.getElem?_append_right hright, List.getElem?_replicate, if_pos]
  simp only [List.length_cons, List.length_nil]
  omega

theorem four_edges_valid {vertex_count : Nat} (h : 4 ≤ vertex_count) :
    (four_edges vertex_count).Valid where
  offsets := by
    refine ⟨?_, rfl, ?_, four_edges_offset h (Nat.le_refl _)⟩
    · simp only [four_edges, List.length_append, List.length_replicate, List.length_cons,
        List.length_nil]
      omega
    · refine List.pairwise_append.mpr ⟨by decide, ?_, fun a ha b hb => ?_⟩
      · exact List.pairwise_replicate.mpr (Or.inr (Nat.le_refl 4))
      · have hlow : ∀ a ∈ [0, 2, 2, 3], a ≤ 4 := by decide
        rw [List.eq_of_mem_replicate hb]
        exact hlow a ha
  ascending v hv := by
    have hoffset : ∀ v, 4 ≤ v → v ≤ vertex_count →
        (four_edges vertex_count).offsets.getD v 0 = 4 := fun v hv hend => by
      rw [List.getD_eq_getElem?_getD, four_edges_offset hv hend]
      rfl
    have hlast := hoffset 4 (Nat.le_refl 4) h
    match v, hv with
    | 0, _ => exact (by decide : [1, 2].Pairwise (· < ·))
    | 1, _ => exact List.Pairwise.nil
    | 2, _ => exact List.pairwise_singleton _ 3
    | 3, _ =>
        rw [DirectedGraph.row, stored_row, hlast]
        exact List.pairwise_singleton _ 0
    | v + 4, hv =>
        have hv : v + 4 < vertex_count := hv
        rw [DirectedGraph.row, stored_row, hoffset (v + 4) (by omega) (by omega),
          hoffset (v + 4 + 1) (by omega) (by omega),
          extract_eq_nil _ (Nat.le_refl 4)]
        exact List.Pairwise.nil
  bounded next hn := by
    have hsmall : ∀ next ∈ [1, 2, 3, 0], next < 4 := by decide
    exact Nat.lt_of_lt_of_le (hsmall next hn) h

-- With `2 ^ 32` vertices the item of 0 → 1 leaves the flag of 0 up, and the item of 2 → 3,
-- if it comes later, misses the cycle through 0.
theorem count_owned_cycles_kernel_wide :
    DevicePhase (four_edges (2 ^ 32)) [⟨0, 1⟩, ⟨2, 3⟩] 3 ∧
      ¬KernelAgrees (four_edges (2 ^ 32)) [⟨0, 1⟩, ⟨2, 3⟩] 3 := by
  have hwide : (four_edges (2 ^ 32)).vertex_count = 2 ^ 32 := rfl
  have hp : DevicePhase (four_edges (2 ^ 32)) [⟨0, 1⟩, ⟨2, 3⟩] 3 := by
    refine ⟨four_edges_valid (by decide), ?_, by decide, ?_, by decide, by decide, by decide, ?_⟩
    · exact (by decide : ∀ next ∈ [1, 2, 3, 0], next < 2 ^ 32)
    · rw [hwide]
      decide
    · rw [hwide]
      decide
  exact ⟨hp, own_regions_overlap hp (Nat.le_of_eq hwide.symm) (by decide)⟩

end Sample

end CycleEnum.Dynamic
