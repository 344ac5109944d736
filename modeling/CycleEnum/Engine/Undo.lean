import CycleEnum.Dynamic.Undo
import CycleEnum.Engine.Stream

namespace CycleEnum.Engine

open CycleEnum.Dynamic (DeviceRoom DirectedGraph apply_batch apply_batch_inverse apply_batch_valid
  apply_batch_well_formed empty_graph inverse_fits)
open CycleEnum.Enumeration

variable {machine : Machine} {max_cycle_length : Nat} {graph : DirectedGraph} {state : StreamState}
  {requests undos : List Request}

-- Requests that take the batches of others back, the last one first.
def Undoes (requests undos : List Request) : Prop :=
  undos.map (·.batch) = (requests.map (·.batch.inverse)).reverse

theorem streamable_append {others : List Request} :
    Streamable max_cycle_length graph (requests ++ others) ↔
      Streamable max_cycle_length graph requests ∧
        Streamable max_cycle_length ((requests.map (·.batch)).foldl apply_batch graph) others := by
  induction requests generalizing graph with
  | nil => simp [Streamable]
  | cons request requests ih =>
      simp only [List.cons_append, Streamable, ih, List.map_cons, List.foldl_cons, and_assoc]

theorem undo_graph (hg : graph.WellFormed) (hvalid : graph.Valid)
    (h : Streamable max_cycle_length graph requests) (hundo : Undoes requests undos)
    (hroom : ∀ undo ∈ undos, undo.backend = .Cuda → DeviceRoom graph undo.batch max_cycle_length) :
    Streamable max_cycle_length graph (requests ++ undos) ∧
      ((requests ++ undos).map (·.batch)).foldl apply_batch graph = graph := by
  induction requests generalizing graph undos with
  | nil =>
      obtain rfl : undos = [] := List.map_eq_nil_iff.mp hundo
      exact ⟨h, rfl⟩
  | cons request requests ih =>
      obtain ⟨hu, hrest⟩ := h
      -- the last request takes back the first batch, those before it all the others
      rw [Undoes, List.map_cons, List.reverse_cons] at hundo
      obtain ⟨inner, last, rfl, hinner, hlast⟩ := List.map_eq_append_iff.mp hundo
      obtain ⟨undo, rfl, hbatch⟩ : ∃ undo, last = [undo] ∧ undo.batch = request.batch.inverse := by
        obtain ⟨undo, rfl⟩ := List.length_eq_one_iff.mp
          (by simpa using congrArg List.length hlast)
        exact ⟨undo, rfl, by simpa using hlast⟩
      have hg' := apply_batch_well_formed hg hu.fits
      have hvalid' := apply_batch_valid hvalid hu.fits.vertices
      have hback := apply_batch_inverse hg hvalid hu.fits
      obtain ⟨hstream, hgraph⟩ := ih hg' hvalid' hrest hinner fun other ho hcuda =>
        (hroom other (List.mem_append_left _ ho) hcuda).congr rfl
      have hundone : Updatable undo.backend (apply_batch graph request.batch) undo.batch
          max_cycle_length := by
        rw [hbatch]
        refine ⟨hvalid', inverse_fits hg hu.fits, hu.few, hu.updated_counts, ?_, fun hcuda => ?_⟩
        · rw [hback]
          exact hu.counts
        · rw [← hbatch]
          exact (hroom undo (by simp) hcuda).congr rfl
      constructor
      · refine ⟨hu, ?_⟩
        change Streamable max_cycle_length (apply_batch graph request.batch)
          (requests ++ (inner ++ [undo]))
        rw [← List.append_assoc, streamable_append, hgraph]
        exact ⟨hstream, hundone, trivial⟩
      · rw [List.cons_append, ← List.append_assoc, List.map_cons, List.foldl_cons, List.map_append,
          List.foldl_append, hgraph]
        simp only [List.map_cons, List.map_nil, List.foldl_cons, List.foldl_nil, hbatch, hback]

-- A stream of updates followed by the batches that take it back, in the opposite order and each
-- on a backend of its own, ends with the graph and the histogram of the start.
theorem update_histogram_undo_exact (hmax : 2 ≤ max_cycle_length)
    (hstate : UpToDate max_cycle_length state) (hvalid : state.graph.Valid)
    (h : Streamable max_cycle_length state.graph requests) (hundo : Undoes requests undos)
    (hroom : ∀ undo ∈ undos, undo.backend = .Cuda →
      DeviceRoom state.graph undo.batch max_cycle_length) :
    ((requests ++ undos).foldlM (update_step machine max_cycle_length) state).Ensures
      (fun _ => False)
      (fun last => last.graph = state.graph ∧ last.histogram = state.histogram)
      (fun failure => ∃ request ∈ requests ++ undos,
        Refused machine request.backend request.threads request.device_id failure) ∧
    ((∀ request ∈ requests ++ undos,
        machine.Serves request.threads request.device_id request.backend) →
      ∃ last, ((requests ++ undos).foldlM (update_step machine max_cycle_length) state).Yields last) := by
  obtain ⟨hstream, hgraph⟩ := undo_graph hstate.well_formed hvalid h hundo hroom
  refine ⟨(stream_ensures hmax hstate hstream).weaken (fun _ => id) (fun last hlast => ?_)
    fun _ => id, exists_stream hmax hstate hstream⟩
  obtain ⟨hlast, hcurrent⟩ := hlast
  rw [hgraph] at hlast
  have hrecount := hcurrent.histogram
  rw [hlast, hstate.histogram] at hrecount
  exact ⟨hlast, (Except.ok.inj hrecount).symm⟩

-- The device's insertions are taken back by one thread, the team's changes on the device.
def sample_undos : List Request :=
  [⟨.Cuda, 1, 0, ⟨[⟨0, 1⟩, ⟨1, 0⟩], [⟨1, 2⟩, ⟨0, 1⟩]⟩⟩,
    ⟨.Sequential, 1, 0, ⟨[⟨2, 0⟩, ⟨0, 1⟩, ⟨1, 2⟩], []⟩⟩]

theorem update_histogram_undo_exact_sample :
    ∃ last, ((sample_requests ++ sample_undos).foldlM (update_step sample_machine 3)
        ⟨empty_graph, ∅, fun _ => ⟨0, Flags.none⟩⟩).Yields last ∧
      last.graph = empty_graph ∧ last.histogram = ∅ := by
  have hroom : ∀ undo ∈ sample_undos, DeviceRoom empty_graph undo.batch 3 := by
    intro undo hm
    rcases List.mem_cons.mp hm with rfl | hm
    · exact ⟨by decide, by decide, by decide, by decide⟩
    · obtain rfl := List.mem_singleton.mp hm
      exact ⟨by decide, by decide, by decide, by decide⟩
  have hexact := @update_histogram_undo_exact sample_machine 3 _ _ sample_undos (by decide)
    sample_start empty_graph_valid sample_requests_streamable rfl fun undo hm _ => hroom undo hm
  obtain ⟨last, hrun⟩ := hexact.2 (sample_machine_serves (by decide))
  exact ⟨last, hrun, hrun.value hexact.1⟩

end CycleEnum.Engine
