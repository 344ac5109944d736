import CycleEnum.Cuda.RootItems
import CycleEnum.Cuda.HostHistogram
import CycleEnum.Sequential.Theorems

namespace CycleEnum.Cuda

open Parallel
open CycleEnum.Sequential (Parsed sample_fits sample_parsed sample_rows simple_cycles view_of
  wide_built wide_rows wide_timestamp_count wide_view wide_view_numbers wide_view_parsed
  wide_view_vertex_count)

variable {graph : GraphView} {data : CudaGraphData} {max_cycle_length : Nat} {launch : Launch}

theorem readable_of_parsed (hg : Parsed graph) (hids : graph.vertex_count < 2 ^ 32) :
    Readable graph := by
  have hw := hg.well_formed hids
  obtain ⟨rows, hrows⟩ := hg.rows hids
  have hends := (simple_graph_of_rows rows).endpoints
  have hf := faithful_of_build hends hrows
  exact ⟨hw, hf.vertex_count ▸ hf.outgoing.offsets⟩

section Run

variable {block_histograms : Nat → Nat → Nat} {arrays : Stacks} {schedule : List Nat}
  {trace : List (Nat × Event)}

-- Every root is claimed by one thread only.
theorem claimed_once {roots : Nat} (h : claims trace = List.range roots) {root : Nat}
    (hr : root < roots) : ∃! thread, (thread, Event.claimed root) ∈ trace := by
  have hmem : root ∈ claims trace := h ▸ List.mem_range.mpr hr
  obtain ⟨⟨thread, event⟩, hi, hroot⟩ := List.mem_filterMap.mp hmem
  have hclaimed : event = .claimed root := by
    cases event with
    | claimed other => rw [Option.some.inj hroot]
    | accessed slot => cases hroot
    | counted cycle_length => cases hroot
  subst hclaimed
  refine ⟨thread, hi, fun other ho => ?_⟩
  have hnodup : (claims trace).Nodup := h ▸ List.nodup_range
  by_contra hne
  have hsymm : Std.Symm fun a b : Nat × Event => ∀ c, a.2.root = some c → ∀ d, b.2.root = some d →
      c ≠ d := ⟨fun a b hab c hc d hd => (hab d hd c hc).symm⟩
  have hapart := (List.pairwise_filterMap.mp hnodup).forall ho hi fun heq =>
    hne (Prod.mk.inj heq).1
  exact hapart root rfl root rfl rfl

-- The kernel with one root for each thread counts what the sequential search counts.
theorem count_roots_kernel_finished (hg : Readable graph) (hmin : 2 ≤ max_cycle_length)
    (hmax : max_cycle_length ≤ INT_MAX) (hall : graph.vertex_count ≤ launch.threads)
    (hfit : graph.vertex_count * max_cycle_length < 2 ^ 64) (hpos : 0 < launch.threads)
    {histogram : CycleHistogram}
    (hseq : Sequential.count_simple_cycles_johnson graph (some max_cycle_length) = .ok histogram)
    {grid : Grid Register Stacks}
    (hrun : (count_roots_kernel (packed graph) max_cycle_length).run launch max_cycle_length schedule
      (Grid.initial launch block_histograms arrays) = some (grid, trace))
    (hdone : grid.Finished launch) :
    (∀ length ≤ max_cycle_length, grid.histogram length = histogram.count length) ∧
      read_histogram max_cycle_length grid.histogram = .ok histogram := by
  have hw := hg.well_formed
  rw [Sequential.count_simple_cycles_johnson_eq hw (by simpa using hmin)] at hseq
  have hitems := (@roots_searches graph max_cycle_length launch.threads hg hfit (by omega)).items
  refine finished_of_items hitems (fun _ _ => trivial) hpos hmax (Sequential.static_events_two_le hw)
    (static_events_le hw (by omega)) (fun slot => ?_) hseq hrun hdone
  rw [tally_static_events hw]
  exact roots_pending_total hall arrays slot

end Run

-- In whatever order the threads draw the roots and add to the histograms, they end with
-- the counts of the sequential search, which has any below 2^32 vertices.
theorem count_roots_queue_kernel_schedule_independent (hg : Parsed graph)
    (hmin : 2 ≤ max_cycle_length) (hmax : max_cycle_length ≤ INT_MAX)
    (hfit : CycleHistogram.NumbersFit (some max_cycle_length) fun k => (simple_cycles graph k).ncard)
    (hpack : pack_graph_for_cuda graph = .ok data) (hthreads : 1 ≤ launch.threads) {slots : Nat}
    (hslots : checked_stack_slots launch.threads max_cycle_length "work-queue" = .ok slots)
    {block_histograms : Nat → Nat → Nat} {arrays : Stacks} {schedule : List Nat}
    {grid : Grid Register QueueMemory} {trace : List (Nat × Event)}
    (hrun : (count_roots_queue_kernel data max_cycle_length).run launch max_cycle_length schedule
      (Grid.initial launch block_histograms ⟨0, arrays⟩) = some (grid, trace)) :
    (∃ histogram,
      Sequential.count_simple_cycles_johnson graph (some max_cycle_length) = .ok histogram ∧
      (∀ item ∈ trace, item.1 < launch.threads ∧ OwnSlots max_cycle_length item.1 item.2) ∧
      (∃ bound, ∀ more last rest, (count_roots_queue_kernel data max_cycle_length).run launch
        max_cycle_length more grid = some (last, rest) → more.length ≤ bound) ∧
      (launch.Granted max_cycle_length → ∃ more last rest,
        (count_roots_queue_kernel data max_cycle_length).run launch max_cycle_length more grid =
          some (last, rest) ∧ last.Finished launch) ∧
      (grid.Finished launch →
        claims trace = List.range graph.vertex_count ∧
        (∀ root < graph.vertex_count, ∃! thread, (thread, Event.claimed root) ∈ trace) ∧
        (∀ length ≤ max_cycle_length, grid.histogram length = histogram.count length) ∧
        read_histogram max_cycle_length grid.histogram = .ok histogram ∧
        ∀ (roots_launch : Launch) (path_slots : Nat), 0 < roots_launch.threads →
          graph.vertex_count ≤ roots_launch.threads →
          checked_stack_slots graph.vertex_count max_cycle_length "path" = .ok path_slots →
          ∀ block_histograms' arrays' schedule' grid' trace',
            (count_roots_kernel data max_cycle_length).run roots_launch max_cycle_length schedule'
              (Grid.initial roots_launch block_histograms' arrays') = some (grid', trace') →
            grid'.Finished roots_launch →
            ∀ length ≤ max_cycle_length, grid.histogram length = grid'.histogram length)) ↔
    graph.vertex_count < 2 ^ 32 := by
  constructor
  · rintro ⟨histogram, hseq, -⟩
    by_contra hcount
    exact Sequential.count_simple_cycles_johnson_endless (Nat.le_of_not_lt hcount) histogram hseq
  intro hids
  have hread := readable_of_parsed hg hids
  have hw := hg.well_formed hids
  have hcap : ∀ limit ∈ some max_cycle_length, 2 ≤ limit := by simpa using hmin
  obtain ⟨histogram, hrecord⟩ := (Sequential.static_record_ok_iff hw).mpr hfit
  have hseq := (Sequential.count_simple_cycles_johnson_eq hw hcap).trans hrecord
  have hfit := checked_stack_slots_ok hslots
  have hfew : graph.vertex_count + launch.threads < 2 ^ 64 := by
    have htwo := Nat.mul_le_mul_left launch.threads hmin
    omega
  obtain ⟨rfl, -⟩ := pack_graph_for_cuda_ok hpack
  have hreach : Reaches (count_roots_queue_work (packed graph) max_cycle_length) launch.threads
      (queue_start arrays) (grid.pool .asking) trace := run_reaches hrun
  have hlower : ∀ pool trace, Reaches (count_roots_queue_work (packed graph) max_cycle_length)
      launch.threads (queue_start arrays) pool trace → ∀ thread < launch.threads, ∀ register,
      pool.registers thread = some register → queue_work graph max_cycle_length launch.threads
        (pool.after thread (count_roots_queue_work (packed graph) max_cycle_length thread register
          pool.memory)) < queue_work graph max_cycle_length launch.threads pool :=
    fun pool trace hr thread ht register hreg =>
      queue_lower hread hfit (by omega) hfew hr ht hreg
  refine ⟨histogram, hseq, queue_accesses hread hfit (by omega) hreach,
    ⟨moves (count_roots_queue_kernel (packed graph) max_cycle_length) launch max_cycle_length
      (queue_work graph max_cycle_length launch.threads) grid, fun more last rest hmore => ?_⟩,
    fun hgranted => exists_run hlower hgranted grid trace hreach, fun hdone => ?_⟩
  · exact Nat.le_of_add_right_le (run_length_le hlower hreach hmore)
  · obtain ⟨hclaims, hcounts⟩ := queue_finished hread hfit (by omega) hfew hreach hthreads
      (hdone.registers _)
    have hhistogram := (run_accounted hrun).read_histogram (Launch.block_size_pos hthreads) hdone
      hmax (Sequential.static_events_two_le hw) (static_events_le hw (by omega))
      (fun length => (hcounts length).trans (tally_static_events hw length).symm) hrecord
    refine ⟨hclaims, fun root hr => claimed_once hclaims hr, hhistogram.1, hhistogram.2, ?_⟩
    intro roots_launch path_slots hpos hall hpath block_histograms' arrays' schedule' grid' trace'
      hrun' hdone' length hle
    have hroots := count_roots_kernel_finished hread hmin hmax hall (checked_stack_slots_ok hpath)
      hpos hseq hrun' hdone'
    rw [hhistogram.1 length hle, hroots.1 length hle]

-- Two threads of one block share the three roots.
theorem count_roots_queue_kernel_schedule_independent_sample :
    ∃ data histogram schedule last trace, pack_graph_for_cuda (view_of sample_rows) = .ok data ∧
      Sequential.count_simple_cycles_johnson (view_of sample_rows) (some 3) = .ok histogram ∧
      (count_roots_queue_kernel data 3).run ⟨2, 1⟩ 3 schedule
        (Grid.initial ⟨2, 1⟩ (fun _ _ => 7) ⟨0, fun _ => 5, fun _ => 9⟩) = some (last, trace) ∧
      claims trace = [0, 1, 2] ∧ read_histogram 3 last.histogram = .ok histogram := by
  have hall := fun schedule grid trace hrun =>
    (@count_roots_queue_kernel_schedule_independent (view_of sample_rows)
      (packed (view_of sample_rows)) 3 ⟨2, 1⟩ sample_parsed (by decide) (by decide) (sample_fits _) rfl
      (by decide) 6 rfl (fun _ _ => 7) ⟨fun _ => 5, fun _ => 9⟩ schedule grid trace hrun).mpr
        (by decide)
  obtain ⟨-, -, -, -, hcompletes, -⟩ := hall [] _ [] rfl
  obtain ⟨schedule, last, trace, hrun, hdone⟩ := hcompletes ⟨by decide, by decide⟩
  obtain ⟨histogram, hseq, -, -, -, hcounts⟩ := hall schedule last trace hrun
  obtain ⟨hclaims, -, -, hread, -⟩ := hcounts hdone
  exact ⟨_, histogram, schedule, last, trace, rfl, hseq, hrun, hclaims, hread⟩

theorem wide_view_packs : pack_graph_for_cuda wide_view = .ok (packed wide_view) := by
  have hfew : 2 ^ 31 ≤ MAX_EDGE_ID := by decide
  have hends := (simple_graph_of_rows (wide_rows (2 ^ 31) [])).endpoints
  refine pack_graph_for_cuda_eq (wide_built (.nil hfew))
    (faithful_of_build hends (wide_built (.nil hfew))) ?_ ?_
  · exact wide_view_vertex_count.trans_le (by decide)
  · exact (wide_timestamp_count hfew).trans (by decide)

-- The sequential search does not come to an end, so there are no counts to agree with.
theorem count_roots_queue_kernel_wide :
    Parsed wide_view ∧ pack_graph_for_cuda wide_view = .ok (packed wide_view) ∧
      (∀ k, 2 ≤ k → (simple_cycles wide_view k).ncard = 0) ∧
      ∀ histogram, Sequential.count_simple_cycles_johnson wide_view (some 2) ≠ .ok histogram :=
  ⟨wide_view_parsed, wide_view_packs, fun _ hk => wide_view_numbers hk,
    Sequential.count_simple_cycles_johnson_endless wide_view_vertex_count.ge⟩

end CycleEnum.Cuda
