import CycleEnum.Cuda.Kernel
import CycleEnum.Core.Transpose

namespace CycleEnum.Cuda

-- The largest `DeviceOffset`.
def MAX_DEVICE_OFFSET : Nat := 2 ^ 64 - 1

def checked_offset (value : Nat) : Except Error Nat :=
  if value > MAX_DEVICE_OFFSET then
    .error (.overflow_error "graph offset does not fit CUDA offset type")
  else .ok value

def pack_offsets (offsets : List Nat) : Except Error (List Nat) := offsets.mapM checked_offset

-- `CudaAdjacencyEntry` has the fields of `AdjacencyEntry`, its offsets 64 bits wide.
def pack_adjacency (entries : List AdjacencyEntry) : Except Error (List AdjacencyEntry) :=
  entries.mapM fun entry => do
    return ⟨entry.vertex, entry.edge_id, ← checked_offset entry.timestamp_begin,
      ← checked_offset entry.timestamp_end⟩

structure CudaGraphData where
  vertex_count : Nat
  edge_count : Nat
  timestamp_count : Nat
  outgoing_offsets : List Nat
  outgoing_edges : List AdjacencyEntry
  incoming_offsets : List Nat
  incoming_edges : List AdjacencyEntry
  timestamps : List Int
  outgoing_neighbors : List Nat
  outgoing_timestamp_begin : List Nat
  outgoing_timestamp_end : List Nat
deriving DecidableEq, Repr

def pack_graph_for_cuda (graph : GraphView) : Except Error CudaGraphData := do
  let vertex_count ← checked_offset graph.vertex_count
  let edge_count ← checked_offset graph.edge_count
  let timestamp_count ← checked_offset graph.timestamp_count
  let outgoing_offsets ← pack_offsets graph.outgoing_offsets
  let outgoing_edges ← pack_adjacency graph.outgoing_edges
  let incoming_offsets ← pack_offsets graph.incoming_offsets
  let incoming_edges ← pack_adjacency graph.incoming_edges
  let slots ← graph.outgoing_edges.mapM fun entry => do
    return (entry.vertex, ← checked_offset entry.timestamp_begin, ← checked_offset entry.timestamp_end)
  return {
    vertex_count, edge_count, timestamp_count, outgoing_offsets, outgoing_edges, incoming_offsets,
    incoming_edges, timestamps := graph.timestamps
    outgoing_neighbors := slots.map (·.1)
    outgoing_timestamp_begin := slots.map (·.2.1)
    outgoing_timestamp_end := slots.map (·.2.2) }

-- The packed arrays hold the view's own values.
def packed (graph : GraphView) : CudaGraphData where
  vertex_count := graph.vertex_count
  edge_count := graph.edge_count
  timestamp_count := graph.timestamp_count
  outgoing_offsets := graph.outgoing_offsets
  outgoing_edges := graph.outgoing_edges
  incoming_offsets := graph.incoming_offsets
  incoming_edges := graph.incoming_edges
  timestamps := graph.timestamps
  outgoing_neighbors := graph.outgoing_edges.map (·.vertex)
  outgoing_timestamp_begin := graph.outgoing_edges.map (·.timestamp_begin)
  outgoing_timestamp_end := graph.outgoing_edges.map (·.timestamp_end)

section Pack

theorem checked_offset_ok {value packed : Nat} (h : checked_offset value = .ok packed) :
    packed = value ∧ value ≤ MAX_DEVICE_OFFSET := by
  unfold checked_offset at h
  split_ifs at h with hle
  exact ⟨(Except.ok.inj h).symm, Nat.le_of_not_lt hle⟩

-- Checking element by element changes no element that it lets through.
theorem mapM_ok {α β : Type} {check : α → Except Error β} {value : α → β}
    (hcheck : ∀ a b, check a = .ok b → b = value a) {as : List α} {bs : List β}
    (h : as.mapM check = .ok bs) : bs = as.map value := by
  induction as generalizing bs with
  | nil => exact (Except.ok.inj h).symm
  | cons a as ih =>
      rw [List.mapM_cons] at h
      obtain ⟨b, hb, h⟩ := bind_ok h
      obtain ⟨rest, hrest, h⟩ := bind_ok h
      rw [← Except.ok.inj h, ih hrest, hcheck a b hb, List.map_cons]

theorem pack_offsets_ok {offsets packed : List Nat} (h : pack_offsets offsets = .ok packed) :
    packed = offsets := by
  have hmap : packed = offsets.map id := mapM_ok (fun a b hb => (checked_offset_ok hb).1) h
  rwa [List.map_id] at hmap

theorem pack_adjacency_ok {entries packed : List AdjacencyEntry}
    (h : pack_adjacency entries = .ok packed) : packed = entries := by
  have hmap : packed = entries.map id := mapM_ok (fun entry packed hpacked => by
    obtain ⟨first, hfirst, hpacked⟩ := bind_ok hpacked
    obtain ⟨last, hlast, hpacked⟩ := bind_ok hpacked
    rw [← Except.ok.inj hpacked, (checked_offset_ok hfirst).1, (checked_offset_ok hlast).1]
    rfl) h
  rwa [List.map_id] at hmap

theorem pack_graph_for_cuda_ok {graph : GraphView} {data : CudaGraphData}
    (h : pack_graph_for_cuda graph = .ok data) :
    data = packed graph ∧ graph.vertex_count ≤ MAX_DEVICE_OFFSET := by
  obtain ⟨vertex_count, hv, h⟩ := bind_ok h
  obtain ⟨edge_count, he, h⟩ := bind_ok h
  obtain ⟨timestamp_count, ht, h⟩ := bind_ok h
  obtain ⟨outgoing_offsets, hoo, h⟩ := bind_ok h
  obtain ⟨outgoing_edges, hoe, h⟩ := bind_ok h
  obtain ⟨incoming_offsets, hio, h⟩ := bind_ok h
  obtain ⟨incoming_edges, hie, h⟩ := bind_ok h
  obtain ⟨slots, hs, h⟩ := bind_ok h
  have hslots : slots = graph.outgoing_edges.map fun entry =>
      (entry.vertex, entry.timestamp_begin, entry.timestamp_end) :=
    mapM_ok (fun entry slot hslot => by
      obtain ⟨first, hfirst, hslot⟩ := bind_ok hslot
      obtain ⟨last, hlast, hslot⟩ := bind_ok hslot
      rw [← Except.ok.inj hslot, (checked_offset_ok hfirst).1, (checked_offset_ok hlast).1]) hs
  refine ⟨?_, (checked_offset_ok hv).2⟩
  rw [← Except.ok.inj h, (checked_offset_ok hv).1, (checked_offset_ok he).1,
    (checked_offset_ok ht).1, pack_offsets_ok hoo, pack_adjacency_ok hoe, pack_offsets_ok hio,
    pack_adjacency_ok hie, hslots, List.map_map, List.map_map, List.map_map]
  rfl

theorem checked_offset_eq {value : Nat} (h : value ≤ MAX_DEVICE_OFFSET) :
    checked_offset value = .ok value := if_neg (by omega)

theorem mapM_eq {α β : Type} {check : α → Except Error β} {value : α → β} {as : List α}
    (h : ∀ a ∈ as, check a = .ok (value a)) : as.mapM check = .ok (as.map value) := by
  induction as with
  | nil => rfl
  | cons a as ih =>
      rw [List.mapM_cons, ok_bind (h a List.mem_cons_self),
        ok_bind (ih fun b hb => h b (List.mem_cons_of_mem _ hb))]
      rfl

theorem pack_offsets_eq {offsets : List Nat} (h : ∀ offset ∈ offsets, offset ≤ MAX_DEVICE_OFFSET) :
    pack_offsets offsets = .ok offsets := by
  have hmap := mapM_eq fun offset ho => checked_offset_eq (h offset ho)
  rwa [List.map_id'] at hmap

theorem pack_adjacency_eq {entries : List AdjacencyEntry}
    (h : ∀ entry ∈ entries, entry.timestamp_begin ≤ MAX_DEVICE_OFFSET ∧
      entry.timestamp_end ≤ MAX_DEVICE_OFFSET) : pack_adjacency entries = .ok entries := by
  have hmap : pack_adjacency entries = .ok (entries.map fun entry => entry) :=
    mapM_eq fun entry he => by
      rw [ok_bind (checked_offset_eq (h entry he).1), ok_bind (checked_offset_eq (h entry he).2)]
      rfl
  rwa [List.map_id'] at hmap

-- Where the timestamps can be numbered, so can the rest.
theorem pack_graph_for_cuda_eq {source : TemporalGraph} {graph : GraphView}
    (hbuild : build_graph_view source = .ok graph) (hf : graph.Faithful source)
    (hvertices : graph.vertex_count ≤ MAX_DEVICE_OFFSET)
    (htimestamps : graph.timestamp_count ≤ MAX_DEVICE_OFFSET) :
    pack_graph_for_cuda graph = .ok (packed graph) := by
  obtain ⟨hedges, -, htimes, -⟩ := build_graph_view_ok hbuild
  have hlast : timestamp_offset source source.edge_count = graph.timestamp_count := by
    rw [GraphView.timestamp_count, htimes]
    simp [timestamp_offset, TemporalGraph.edge_count, List.length_flatMap]
  have hsmall : source.edge_count ≤ MAX_DEVICE_OFFSET := by
    unfold MAX_EDGE_ID at hedges
    unfold MAX_DEVICE_OFFSET
    omega
  rw [← hlast] at htimestamps
  have hle : ∀ {a b : Nat}, a ≤ timestamp_offset source source.edge_count ∧
      b ≤ timestamp_offset source source.edge_count → a ≤ MAX_DEVICE_OFFSET ∧ b ≤ MAX_DEVICE_OFFSET :=
    fun h => ⟨Nat.le_trans h.1 htimestamps, Nat.le_trans h.2 htimestamps⟩
  have hout := fun entry he => hle (hf.outgoing.timestamps_le (fun v => rfl) entry he)
  have hin := fun entry he => hle (hf.incoming.timestamps_le (fun v => rfl) entry he)
  have hcount : graph.edge_count ≤ MAX_DEVICE_OFFSET := by
    rw [GraphView.edge_count, hf.outgoing.size]
    exact hsmall
  have hoffset : ∀ {offsets n edges}, Offsets offsets n edges → edges = source.edge_count →
      ∀ offset ∈ offsets, offset ≤ MAX_DEVICE_OFFSET :=
    fun ho he offset hmem => Nat.le_trans (ho.le_size offset hmem) (he ▸ hsmall)
  have hslots : (graph.outgoing_edges.mapM fun entry => do
      return (entry.vertex, ← checked_offset entry.timestamp_begin,
        ← checked_offset entry.timestamp_end)) =
      .ok (graph.outgoing_edges.map fun entry =>
        (entry.vertex, entry.timestamp_begin, entry.timestamp_end)) :=
    mapM_eq fun entry he => by
      rw [ok_bind (checked_offset_eq (hout entry he).1), ok_bind (checked_offset_eq (hout entry he).2)]
      rfl
  rw [pack_graph_for_cuda, ok_bind (checked_offset_eq hvertices), ok_bind (checked_offset_eq hcount),
    ok_bind (checked_offset_eq (hlast ▸ htimestamps)),
    ok_bind (pack_offsets_eq (hoffset hf.outgoing.offsets hf.outgoing.size)),
    ok_bind (pack_adjacency_eq hout),
    ok_bind (pack_offsets_eq (hoffset hf.incoming.offsets hf.incoming.size)),
    ok_bind (pack_adjacency_eq hin), ok_bind hslots, List.map_map, List.map_map, List.map_map]
  rfl

end Pack

-- What the kernels rely on when they read the packed arrays.
structure Readable (graph : GraphView) : Prop where
  well_formed : graph.WellFormed
  offsets : Offsets graph.outgoing_offsets graph.vertex_count graph.outgoing_edges.length

theorem mem_outgoing_row {graph : GraphView} {v cursor : Nat} {edge : AdjacencyEntry}
    (hlow : graph.outgoing_offsets.getD v 0 ≤ cursor)
    (hc : cursor < graph.outgoing_offsets.getD (next_id v) 0)
    (he : graph.outgoing_edges[cursor]? = some edge) : edge ∈ graph.outgoing_row v := by
  have hsplit : graph.outgoing_row v = (graph.outgoing_edges.drop
      (graph.outgoing_offsets.getD v 0)).take
      (graph.outgoing_offsets.getD (next_id v) 0 - graph.outgoing_offsets.getD v 0) :=
    List.extract_eq_take_drop ..
  rw [hsplit]
  apply List.mem_of_getElem? (i := cursor - graph.outgoing_offsets.getD v 0)
  rw [List.getElem?_take_of_lt (by omega), List.getElem?_drop, Nat.add_sub_cancel' hlow, he]

-- What the kernels read of the edge at a slot.
theorem packed_slot {graph : GraphView} {cursor : Nat} {edge : AdjacencyEntry}
    (he : graph.outgoing_edges[cursor]? = some edge) :
    (packed graph).outgoing_neighbors.getD cursor 0 = edge.vertex ∧
      (packed graph).outgoing_timestamp_begin.getD cursor 0 = edge.timestamp_begin ∧
      (packed graph).outgoing_timestamp_end.getD cursor 0 = edge.timestamp_end := by
  have hread : ∀ field : AdjacencyEntry → Nat,
      (graph.outgoing_edges.map field).getD cursor 0 = field edge := fun field => by
    rw [List.getD_eq_getElem?_getD, List.getElem?_map, he]
    rfl
  exact ⟨hread _, hread _, hread _⟩

theorem extract_eq_nil {α : Type} (entries : List α) {first last : Nat} (h : last ≤ first) :
    entries.extract first last = [] := by
  rw [List.extract_eq_take_drop, Nat.sub_eq_zero_of_le h, List.take_zero]

-- The entries from a cursor to the end of a row: the one at the cursor and the rest.
theorem extract_cons_of_lt {α : Type} (entries : List α) {cursor last : Nat} (hc : cursor < last)
    (hl : last ≤ entries.length) : ∃ entry, entries[cursor]? = some entry ∧
      entries.extract cursor last = entry :: entries.extract (cursor + 1) last := by
  have hlt : cursor < entries.length := by omega
  refine ⟨entries[cursor], List.getElem?_eq_getElem hlt, ?_⟩
  obtain ⟨rest, hrest⟩ : ∃ rest, last - cursor = rest + 1 := ⟨last - cursor - 1, by omega⟩
  rw [List.extract_eq_take_drop, List.extract_eq_take_drop, hrest, List.drop_eq_getElem_cons hlt,
    List.take_succ_cons]
  congr 2
  omega

section Readable

variable {graph : GraphView} (hg : Readable graph)

include hg

theorem Readable.offset_le {v : Nat} (hv : v < graph.vertex_count) :
    graph.outgoing_offsets.getD v 0 ≤ graph.outgoing_offsets.getD (next_id v) 0 ∧
      graph.outgoing_offsets.getD (next_id v) 0 ≤ graph.outgoing_edges.length := by
  rw [next_id_of_lt hv hg.well_formed.counted]
  have hlen := hg.offsets.length
  have hlast : graph.outgoing_offsets[graph.vertex_count]? = some graph.outgoing_edges.length :=
    hg.offsets.finish
  have hmono := List.pairwise_iff_getElem.mp hg.offsets.ascending
  rw [List.getD_eq_getElem _ _ (by omega), List.getD_eq_getElem _ _ (by omega)]
  refine ⟨hmono v (v + 1) (by omega) (by omega) (by omega), ?_⟩
  obtain ⟨hn, hlast⟩ := List.getElem?_eq_some_iff.mp hlast
  rw [← hlast]
  rcases Nat.eq_or_lt_of_le (show v + 1 ≤ graph.vertex_count from hv) with he | hlt
  · simp [he]
  · exact hmono (v + 1) graph.vertex_count (by omega) (by omega) hlt

theorem Readable.extract_cons {v cursor : Nat} (hv : v < graph.vertex_count)
    (hc : cursor < graph.outgoing_offsets.getD (next_id v) 0) :
    ∃ edge, graph.outgoing_edges[cursor]? = some edge ∧
      graph.outgoing_edges.extract cursor (graph.outgoing_offsets.getD (next_id v) 0) =
        edge :: graph.outgoing_edges.extract (cursor + 1) (graph.outgoing_offsets.getD (next_id v) 0) :=
  extract_cons_of_lt _ hc (hg.offset_le hv).2

end Readable

end CycleEnum.Cuda
