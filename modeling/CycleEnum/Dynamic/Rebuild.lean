import CycleEnum.Core.BinarySearch
import CycleEnum.Core.Transpose
import CycleEnum.Dynamic.DirectedGraph
import Mathlib.Data.Prod.Lex

namespace CycleEnum.Dynamic

def has_edge (graph : DirectedGraph) (source target : Nat) : Bool :=
  if source ≥ graph.vertex_count then false
  else binary_search (fun a b => decide (a < b)) graph.neighbors (graph.offsets.getD source 0)
    (graph.offsets.getD (next_id source) 0) target

-- What a graph in CSR form promises.
structure DirectedGraph.Valid (graph : DirectedGraph) : Prop where
  offsets : Offsets graph.offsets graph.vertex_count graph.neighbors.length
  ascending : ∀ v < graph.vertex_count, (graph.row v).Pairwise (· < ·)
  bounded : ∀ next ∈ graph.neighbors, next < graph.vertex_count

-- `apply_batch` in the steps of the source: flags, searches in the sorted deletions,
-- offsets from the degrees, and rows that are copied to them.
namespace Rebuild

def mark (vertex_count : Nat) (touched : List Bool) (change : EdgeChange) : List Bool :=
  if change.source < vertex_count then touched.set change.source true else touched

def touched_flags (base : DirectedGraph) (batch : EdgeBatch) : List Bool :=
  batch.insertions.foldl (mark base.vertex_count)
    (batch.deletions.foldl (mark base.vertex_count) (List.replicate base.vertex_count false))

def is_deleted (deletions : List EdgeChange) (source target : Nat) : Bool :=
  binary_search EdgeChange.lt deletions 0 deletions.length ⟨source, target⟩

def rebuilt_row (base : DirectedGraph) (batch : EdgeBatch) (deletions : List EdgeChange)
    (source : Nat) : List Nat :=
  let kept := (base.row source).filter fun target => !is_deleted deletions source target
  let added := (batch.insertions.filter (·.source = source)).map (·.target)
  unique ((kept ++ added).insertionSort (· ≤ ·))

def rebuilt_rows (base : DirectedGraph) (batch : EdgeBatch) (touched : List Bool) :
    List (List Nat) :=
  let deletions := batch.deletions.insertionSort fun a b => EdgeChange.lt b a = false
  (List.range base.vertex_count).map fun source =>
    if touched.getD source false then rebuilt_row base batch deletions source else []

def place_offset (base : DirectedGraph) (touched : List Bool) (rebuilt : List (List Nat))
    (offsets : List Nat) (source : Nat) : List Nat :=
  let degree := if touched.getD source false then (rebuilt.getD source []).length
    else base.offsets.getD (source + 1) 0 - base.offsets.getD source 0
  offsets.set (source + 1) (offsets.getD source 0 + degree)

-- `std::copy` of a row to a place of an array.
def copy_to (row : List Nat) (out : List Nat) (first : Nat) : List Nat :=
  out.take first ++ row ++ out.drop (first + row.length)

def copy_row (base : DirectedGraph) (touched : List Bool) (rebuilt : List (List Nat))
    (offsets : List Nat) (neighbors : List Nat) (source : Nat) : List Nat :=
  copy_to (if touched.getD source false then rebuilt.getD source [] else base.row source)
    neighbors (offsets.getD source 0)

def apply_batch (base : DirectedGraph) (batch : EdgeBatch) : DirectedGraph :=
  let touched := touched_flags base batch
  let rebuilt := rebuilt_rows base batch touched
  let sources := List.range base.vertex_count
  let offsets := sources.foldl (place_offset base touched rebuilt)
    (List.replicate (base.vertex_count + 1) 0)
  let neighbors := sources.foldl (copy_row base touched rebuilt offsets)
    (List.replicate (offsets.getLastD 0) 0)
  ⟨base.vertex_count, offsets, neighbors⟩

end Rebuild

variable {graph : DirectedGraph} {batch : EdgeBatch}

namespace DirectedGraph

theorem Valid.row_bounds (hg : graph.Valid) {v : Nat} (hv : v < graph.vertex_count) :
    graph.offsets.getD v 0 ≤ graph.offsets.getD (v + 1) 0 ∧
      graph.offsets.getD (v + 1) 0 ≤ graph.neighbors.length := by
  refine ⟨hg.offsets.getD_le (Nat.le_add_right v 1) hv, ?_⟩
  have hlen := hg.offsets.length
  rw [List.getD_eq_getElem _ _ (by omega)]
  exact hg.offsets.le_size _ (List.getElem_mem _)

theorem Valid.start (hg : graph.Valid) : graph.offsets.getD 0 0 = 0 := hg.offsets.getD_start

-- A row that is read ends among the neighbours too.
theorem Valid.next_id_le (hg : graph.Valid) {v : Nat} (hv : v < graph.vertex_count) :
    graph.offsets.getD (next_id v) 0 ≤ graph.neighbors.length := by
  unfold next_id
  split_ifs
  · rw [hg.start]
    exact Nat.zero_le _
  · exact (hg.row_bounds hv).2

theorem Valid.length_row (hg : graph.Valid) {v : Nat} (hv : v < graph.vertex_count) :
    (graph.row v).length = graph.offsets.getD (v + 1) 0 - graph.offsets.getD v 0 := by
  have := hg.row_bounds hv
  rw [row, stored_row, List.extract_eq_take_drop, List.length_take, List.length_drop]
  omega

theorem Valid.row_eq_nil (hg : graph.Valid) {v : Nat} (hv : graph.vertex_count ≤ v) :
    graph.row v = [] := DirectedGraph.row_eq_nil hg.offsets.length hv

end DirectedGraph

-- The search that `has_edge` makes relies on the rows being sorted.
theorem has_edge_iff (hg : graph.Valid) {source : Nat} (hid : source + 1 ≠ 2 ^ 32) (target : Nat) :
    has_edge graph source target = true ↔ target ∈ graph.row source := by
  unfold has_edge
  split_ifs with hs
  · rw [hg.row_eq_nil hs]
    simp
  · have hs := Nat.lt_of_not_le hs
    obtain ⟨hfirst, hlast⟩ := hg.row_bounds hs
    rw [next_id_eq hid]
    have hsorted : (graph.neighbors.extract (graph.offsets.getD source 0)
        (graph.offsets.getD (source + 1) 0)).Pairwise fun a b => id a ≤ id b :=
      (hg.ascending source hs).imp Nat.le_of_lt
    exact binary_search_iff Function.injective_id (fun a b => decide_eq_true_iff) hfirst hlast
      hsorted target

section Deletions

def EdgeChange.rank (change : EdgeChange) : Nat ×ₗ Nat := toLex (change.source, change.target)

theorem EdgeChange.rank_injective : Function.Injective EdgeChange.rank := by
  rintro ⟨s, t⟩ ⟨s', t'⟩ h
  obtain ⟨rfl, rfl⟩ := Prod.mk.inj (toLex.injective h)
  rfl

theorem EdgeChange.lt_iff_rank (a b : EdgeChange) :
    EdgeChange.lt a b = true ↔ a.rank < b.rank := by
  rw [EdgeChange.lt_iff, EdgeChange.rank, EdgeChange.rank, Prod.Lex.toLex_lt_toLex]

theorem is_deleted_iff {deletions : List EdgeChange}
    (hsorted : deletions.Pairwise fun a b => EdgeChange.lt b a = false) (source target : Nat) :
    Rebuild.is_deleted deletions source target = true ↔ ⟨source, target⟩ ∈ deletions := by
  have hrank : (deletions.extract 0 deletions.length).Pairwise fun a b => a.rank ≤ b.rank := by
    rw [List.extract_eq_take_drop, List.drop_zero, Nat.sub_zero, List.take_length]
    refine hsorted.imp fun h => ?_
    rw [← not_lt, ← EdgeChange.lt_iff_rank, h]
    exact Bool.false_ne_true
  have hfound := binary_search_iff EdgeChange.rank_injective EdgeChange.lt_iff_rank
    (Nat.zero_le _) (Nat.le_refl _) hrank ⟨source, target⟩
  rwa [List.extract_eq_take_drop, List.drop_zero, Nat.sub_zero, List.take_length] at hfound

end Deletions

namespace Rebuild

theorem foldl_mark (vertex_count : Nat) (changes : List EdgeChange) (touched : List Bool)
    (hlength : touched.length = vertex_count) :
    (changes.foldl (mark vertex_count) touched).length = vertex_count ∧
      ∀ v < vertex_count, (changes.foldl (mark vertex_count) touched).getD v false =
        (touched.getD v false || changes.any (·.source = v)) := by
  induction changes generalizing touched with
  | nil => exact ⟨hlength, fun v _ => by simp⟩
  | cons change changes ih =>
      have hmark : (mark vertex_count touched change).length = vertex_count ∧
          ∀ v < vertex_count, (mark vertex_count touched change).getD v false =
            (touched.getD v false || decide (change.source = v)) := by
        unfold mark
        split_ifs with hs
        · refine ⟨by rw [List.length_set, hlength], fun v hv => ?_⟩
          rw [List.getD_eq_getElem?_getD, List.getD_eq_getElem?_getD]
          by_cases he : change.source = v
          · subst he
            rw [List.getElem?_set_self (by omega)]
            simp
          · rw [List.getElem?_set_ne he]
            simp [he]
        · refine ⟨hlength, fun v hv => ?_⟩
          have he : change.source ≠ v := by omega
          simp [he]
      obtain ⟨hlen, hvalue⟩ := ih (mark vertex_count touched change) hmark.1
      refine ⟨hlen, fun v hv => ?_⟩
      rw [List.foldl_cons, hvalue v hv, hmark.2 v hv, List.any_cons, Bool.or_assoc]

theorem touched_flags_eq (base : DirectedGraph) (batch : EdgeBatch) {v : Nat}
    (hv : v < base.vertex_count) : (touched_flags base batch).getD v false = touched batch v := by
  obtain ⟨hlen, hdeleted⟩ := foldl_mark base.vertex_count batch.deletions
    (List.replicate base.vertex_count false) List.length_replicate
  obtain ⟨-, hinserted⟩ := foldl_mark base.vertex_count batch.insertions _ hlen
  rw [touched_flags, hinserted v hv, hdeleted v hv, touched]
  simp

theorem rebuilt_row_eq (base : DirectedGraph) (batch : EdgeBatch) (source : Nat) :
    rebuilt_row base batch (batch.deletions.insertionSort fun a b => EdgeChange.lt b a = false)
      source = rebuilt base batch source := by
  have hkept : ∀ target, (!is_deleted (batch.deletions.insertionSort fun a b =>
      EdgeChange.lt b a = false) source target) = decide (⟨source, target⟩ ∉ batch.deletions) := by
    intro target
    have hiff := is_deleted_iff (sorted_changes batch.deletions) source target
    rw [List.mem_insertionSort] at hiff
    rw [Bool.eq_iff_iff, Bool.not_eq_true', ← Bool.not_eq_true, hiff, decide_eq_true_eq]
  rw [rebuilt_row, rebuilt]
  simp only [hkept]

-- The row of a vertex after a batch.
def new_row (base : DirectedGraph) (batch : EdgeBatch) (source : Nat) : List Nat :=
  if touched batch source then rebuilt base batch source else base.row source

def new_rows (base : DirectedGraph) (batch : EdgeBatch) : List (List Nat) :=
  (List.range base.vertex_count).map (new_row base batch)

-- The loop over the degrees sums them up.
theorem foldl_offsets {rows : List (List Nat)} {step : List Nat → Nat → List Nat}
    (hstep : ∀ offsets v, v < rows.length → step offsets v =
      offsets.set (v + 1) (offsets.getD v 0 + (rows.getD v []).length)) (n : Nat)
    (hn : n ≤ rows.length) :
    ((List.range n).foldl step (List.replicate (rows.length + 1) 0)).length = rows.length + 1 ∧
      ∀ v ≤ n, ((List.range n).foldl step (List.replicate (rows.length + 1) 0)).getD v 0 =
        (rows.take v).flatten.length := by
  induction n with
  | zero =>
      refine ⟨List.length_replicate, fun v hv => ?_⟩
      obtain rfl : v = 0 := by omega
      simp
  | succ n ih =>
      obtain ⟨hlen, hvalue⟩ := ih (by omega)
      rw [List.range_succ, List.foldl_append, List.foldl_cons, List.foldl_nil, hstep _ n (by omega)]
      refine ⟨by rw [List.length_set, hlen], fun v hv => ?_⟩
      by_cases he : v = n + 1
      · subst he
        rw [List.getD_eq_getElem?_getD, List.getElem?_set_self (by omega), Option.getD_some,
          hvalue n (Nat.le_refl n), List.take_succ_eq_append_getElem (by omega),
          List.getD_eq_getElem _ _ (by omega), List.flatten_append, List.length_append]
        simp
      · rw [List.getD_eq_getElem?_getD, List.getElem?_set_ne (Ne.symm he),
          ← List.getD_eq_getElem?_getD, hvalue v (by omega)]

-- The loop over the rows puts them one after the other.
theorem foldl_copies {rows : List (List Nat)} {step : List Nat → Nat → List Nat}
    (hstep : ∀ out v, v < rows.length → step out v =
      copy_to (rows.getD v []) out (rows.take v).flatten.length) (n : Nat) (hn : n ≤ rows.length) :
    (List.range n).foldl step (List.replicate rows.flatten.length 0) =
      (rows.take n).flatten ++
        List.replicate (rows.flatten.length - (rows.take n).flatten.length) 0 := by
  induction n with
  | zero => simp
  | succ n ih =>
      have hrow : (rows.take (n + 1)).flatten = (rows.take n).flatten ++ rows.getD n [] := by
        rw [List.take_succ_eq_append_getElem (by omega), List.getD_eq_getElem _ _ (by omega),
          List.flatten_append]
        simp
      rw [List.range_succ, List.foldl_append, List.foldl_cons, List.foldl_nil, hstep _ n (by omega),
        ih (by omega), copy_to, List.take_left, List.drop_append, hrow, List.length_append]
      simp [Nat.sub_sub]

theorem length_new_rows (base : DirectedGraph) (batch : EdgeBatch) :
    (new_rows base batch).length = base.vertex_count := by
  simp [new_rows]

theorem getD_new_rows (base : DirectedGraph) (batch : EdgeBatch) {v : Nat}
    (hv : v < base.vertex_count) : (new_rows base batch).getD v [] = new_row base batch v := by
  rw [new_rows, List.getD_eq_getElem _ _ (by simpa using hv)]
  simp

theorem getD_rebuilt_rows (base : DirectedGraph) (batch : EdgeBatch) {v : Nat}
    (hv : v < base.vertex_count) (ht : touched batch v = true) :
    (rebuilt_rows base batch (touched_flags base batch)).getD v [] = rebuilt base batch v := by
  rw [rebuilt_rows, List.getD_eq_getElem _ _ (by simpa using hv), List.getElem_map,
    List.getElem_range, touched_flags_eq base batch hv, if_pos ht, rebuilt_row_eq]

-- The steps of the source come to the rows one after the other.
theorem apply_batch_eq (hg : graph.Valid) (batch : EdgeBatch) :
    apply_batch graph batch = Dynamic.apply_batch graph batch := by
  have hrow : ∀ v, v < graph.vertex_count → (if touched batch v then
      (rebuilt_rows graph batch (touched_flags graph batch)).getD v [] else graph.row v) =
        (new_rows graph batch).getD v [] := by
    intro v hv
    rw [getD_new_rows graph batch hv, new_row]
    split_ifs with ht
    · exact getD_rebuilt_rows graph batch hv ht
    · rfl
  have hlength := length_new_rows graph batch
  have hdegree : ∀ offsets v, v < (new_rows graph batch).length →
      place_offset graph (touched_flags graph batch)
        (rebuilt_rows graph batch (touched_flags graph batch)) offsets v =
      offsets.set (v + 1) (offsets.getD v 0 + ((new_rows graph batch).getD v []).length) := by
    intro offsets v hv
    rw [hlength] at hv
    rw [place_offset, touched_flags_eq graph batch hv, ← hrow v hv]
    congr 2
    split_ifs with ht
    · rfl
    · exact (hg.length_row hv).symm
  obtain ⟨hlen, hvalue⟩ := foldl_offsets hdegree _ (Nat.le_refl _)
  rw [hlength] at hlen hvalue
  have hoffsets : (List.range graph.vertex_count).foldl (place_offset graph
      (touched_flags graph batch) (rebuilt_rows graph batch (touched_flags graph batch)))
        (List.replicate (graph.vertex_count + 1) 0) = (concat_rows (new_rows graph batch)).1 := by
    rw [concat_rows_eq, hlength]
    refine List.ext_getElem (by simpa using hlen) fun v h₁ h₂ => ?_
    have := hvalue v (by omega)
    rw [List.getD_eq_getElem _ _ h₁] at this
    simpa using this
  have htotal : ((concat_rows (new_rows graph batch)).1).getLastD 0 =
      (new_rows graph batch).flatten.length := by
    rw [concat_rows_eq, List.range_succ, List.map_append, List.map_singleton, List.getLastD_concat,
      List.take_length]
  have hcopy : ∀ out v, v < (new_rows graph batch).length →
      copy_row graph (touched_flags graph batch)
        (rebuilt_rows graph batch (touched_flags graph batch))
        (concat_rows (new_rows graph batch)).1 out v =
      copy_to ((new_rows graph batch).getD v []) out ((new_rows graph batch).take v).flatten.length := by
    intro out v hv
    rw [hlength] at hv
    rw [copy_row, touched_flags_eq graph batch hv, hrow v hv, ← hoffsets, hvalue v (Nat.le_of_lt hv)]
  have hcopies := foldl_copies hcopy _ (Nat.le_refl _)
  rw [List.take_length, Nat.sub_self, List.replicate_zero, List.append_nil, hlength] at hcopies
  rw [apply_batch, hoffsets, htotal, hcopies]
  change _ = DirectedGraph.mk graph.vertex_count (concat_rows (new_rows graph batch)).1
    (concat_rows (new_rows graph batch)).2
  rw [concat_rows_eq]

end Rebuild

section Exact

theorem apply_batch_offsets (graph : DirectedGraph) (batch : EdgeBatch) :
    Offsets (apply_batch graph batch).offsets graph.vertex_count
      (apply_batch graph batch).neighbors.length := by
  have := concat_rows_offsets (Rebuild.new_rows graph batch)
  rwa [Rebuild.length_new_rows] at this

-- The neighbours after a batch are old ones and targets of insertions.
theorem mem_apply_batch_neighbors (hg : graph.Valid)
    (hb : ∀ change ∈ batch.insertions, change.source < graph.vertex_count) {next : Nat}
    (hn : next ∈ (apply_batch graph batch).neighbors) :
    next ∈ graph.neighbors ∨ ∃ change ∈ batch.insertions, change.target = next := by
  obtain ⟨v, -, hm⟩ := (apply_batch_offsets graph batch).mem_row hn
  have hm : next ∈ (apply_batch graph batch).row v := hm
  rcases (mem_apply_batch_iff hg.offsets.length hb).mp hm with ⟨hold, -⟩ | hins
  · obtain ⟨i, -, -, hi⟩ := mem_extract_iff.mp hold
    exact Or.inl (List.mem_of_getElem? hi)
  · exact Or.inr ⟨⟨v, next⟩, hins, rfl⟩

theorem apply_batch_valid (hg : graph.Valid)
    (hb : ∀ change ∈ batch.deletions ++ batch.insertions,
      change.source < graph.vertex_count ∧ change.target < graph.vertex_count) :
    (apply_batch graph batch).Valid := by
  refine ⟨apply_batch_offsets graph batch, fun v hv => ?_, fun next hn => ?_⟩
  · rw [apply_batch_row]
    split_ifs
    · exact unique_pairwise (fun a b => Nat.lt_of_le_of_ne) (List.pairwise_insertionSort _ _)
    · exact hg.ascending v hv
    · exact List.Pairwise.nil
  · rcases mem_apply_batch_neighbors hg (fun change hc =>
      (hb change (List.mem_append_right _ hc)).1) hn with hold | ⟨change, hins, rfl⟩
    · exact hg.bounded next hold
    · exact (hb change (List.mem_append_right _ hins)).2

theorem mem_row_apply_batch_iff (hg : graph.Valid)
    (hb : ∀ change ∈ batch.deletions ++ batch.insertions,
      change.source < graph.vertex_count ∧ change.target < graph.vertex_count) {u v : Nat} :
    v ∈ (apply_batch graph batch).row u ↔
      ⟨u, v⟩ ∈ batch.insertions ∨ v ∈ graph.row u ∧ ⟨u, v⟩ ∉ batch.deletions := by
  rw [or_comm]
  exact mem_apply_batch_iff hg.offsets.length fun change hm =>
    (hb change (List.mem_append_right _ hm)).1

theorem has_edge_last (hg : graph.Valid) {source : Nat} (h : source + 1 = 2 ^ 32) (target : Nat) :
    has_edge graph source target = false := by
  unfold has_edge
  split_ifs
  · rfl
  · rw [next_id, if_pos h, hg.start]
    simp [binary_search]

-- The range of a search ends no sooner than it begins, as `std::binary_search` demands.
def DirectedGraph.Searchable (graph : DirectedGraph) (source : Nat) : Prop :=
  source < graph.vertex_count →
    graph.offsets.getD source 0 ≤ graph.offsets.getD (next_id source) 0

theorem searchable_of_ne (hg : graph.Valid) {source : Nat} (hid : source + 1 ≠ 2 ^ 32) :
    graph.Searchable source := fun hs => by
  rw [next_id_eq hid]
  exact (hg.row_bounds hs).1

-- The row of the last id begins at 0 where all rows before it are empty.
theorem searchable_last (hg : graph.Valid) {last : Nat} (h : last + 1 = 2 ^ 32)
    (hlast : last < graph.vertex_count) :
    graph.Searchable last ↔ ∀ v < last, graph.row v = [] := by
  have hstart : graph.Searchable last ↔ graph.offsets.getD last 0 = 0 := by
    rw [DirectedGraph.Searchable, next_id, if_pos h, hg.start]
    exact ⟨fun hle => Nat.le_zero.mp (hle hlast), fun hzero _ => hzero.le⟩
  rw [hstart]
  constructor
  · intro hzero v hv
    have hvertex : v < graph.vertex_count := hv.trans hlast
    have hend := hg.offsets.getD_le (show v + 1 ≤ last from hv) hlast.le
    rw [← List.length_eq_zero_iff, hg.length_row hvertex]
    omega
  · intro hempty
    have hzero : ∀ v ≤ last, graph.offsets.getD v 0 = 0 := by
      intro v
      induction v with
      | zero => exact fun _ => hg.start
      | succ v ih =>
          intro hv
          have hvertex : v < graph.vertex_count := by omega
          have hlength := hg.length_row hvertex
          rw [hempty v hv, List.length_nil, ih (Nat.le_of_succ_le hv)] at hlength
          omega
    exact hzero last (Nat.le_refl last)

-- A batch keeps what the representation promises, and changes the edges it names and
-- no others. A deletion loses to an insertion of the same edge.
structure RebuildsExactly (graph : DirectedGraph) (batch : EdgeBatch) : Prop where
  valid : (Rebuild.apply_batch graph batch).Valid
  vertex_count : (Rebuild.apply_batch graph batch).vertex_count = graph.vertex_count
  searchable : ∀ u < 2 ^ 32, graph.Searchable u ∧ (Rebuild.apply_batch graph batch).Searchable u
  edges : ∀ u < 2 ^ 32, ∀ v < 2 ^ 32, has_edge (Rebuild.apply_batch graph batch) u v = true ↔
    ⟨u, v⟩ ∈ batch.insertions ∨ has_edge graph u v = true ∧ ⟨u, v⟩ ∉ batch.deletions

section Ids

variable (hg : graph.Valid)
  (hb : ∀ change ∈ batch.deletions ++ batch.insertions,
    change.source < graph.vertex_count ∧ change.target < graph.vertex_count)

include hg hb

-- What does not depend on the vertex with the last id.
theorem has_edge_apply_batch {u : Nat} (hid : u + 1 ≠ 2 ^ 32) (v : Nat) :
    has_edge (apply_batch graph batch) u v = true ↔
      ⟨u, v⟩ ∈ batch.insertions ∨ has_edge graph u v = true ∧ ⟨u, v⟩ ∉ batch.deletions := by
  rw [has_edge_iff (apply_batch_valid hg hb) hid, has_edge_iff hg hid]
  exact mem_row_apply_batch_iff hg hb

-- Where the last id is a vertex, nothing may be inserted: neither at it, as its row is
-- read as empty, nor before it, as its row is then read backwards.
theorem no_insertions (hids : ∀ change ∈ batch.insertions, change.source < 2 ^ 32 ∧
      change.target < 2 ^ 32) (hlast : 2 ^ 32 ≤ graph.vertex_count)
    (h : RebuildsExactly graph batch) : batch.insertions = [] := by
  have hvalid := apply_batch_valid hg hb
  have hsearch := h.searchable (2 ^ 32 - 1) (by decide)
  have hedges := h.edges
  rw [Rebuild.apply_batch_eq hg batch] at hsearch hedges
  have hempty := (searchable_last hvalid rfl (Nat.lt_of_lt_of_le (by decide) hlast)).mp hsearch.2
  refine List.eq_nil_iff_forall_not_mem.mpr fun change hchange => ?_
  obtain ⟨hsource, htarget⟩ := hids change hchange
  have hedge := (hedges change.source hsource change.target htarget).mpr (Or.inl hchange)
  by_cases hid : change.source + 1 = 2 ^ 32
  · rw [has_edge_last hvalid hid] at hedge
    cases hedge
  · rw [has_edge_iff hvalid hid, hempty change.source (by omega)] at hedge
    cases hedge

-- An empty row of the last id stays empty when nothing is inserted.
theorem rebuilds_without_insertions (hnone : batch.insertions = [])
    (hempty : ∀ v, v + 1 < 2 ^ 32 → graph.row v = []) : RebuildsExactly graph batch := by
  have hvalid := apply_batch_valid hg hb
  have hempty' : ∀ v, v + 1 < 2 ^ 32 → (apply_batch graph batch).row v = [] := by
    intro v hv
    refine List.eq_nil_iff_forall_not_mem.mpr fun next hnext => ?_
    rcases (mem_row_apply_batch_iff hg hb).mp hnext with hins | ⟨hold, -⟩
    · rw [hnone] at hins
      cases hins
    · rw [hempty v hv] at hold
      cases hold
  have hsearch : ∀ {other : DirectedGraph}, other.Valid →
      (∀ v, v + 1 < 2 ^ 32 → other.row v = []) → ∀ u < 2 ^ 32, other.Searchable u := by
    intro other hother hrows u hu
    by_cases hid : u + 1 = 2 ^ 32
    · exact fun hvertex => (searchable_last hother hid hvertex).mpr
        (fun v hv => hrows v (by omega)) hvertex
    · exact searchable_of_ne hother hid
  have heq := Rebuild.apply_batch_eq hg batch
  refine ⟨heq ▸ hvalid, heq ▸ rfl, fun u hu => ⟨hsearch hg hempty u hu,
    heq ▸ hsearch hvalid hempty' u hu⟩, fun u hu v hv => ?_⟩
  rw [heq]
  by_cases hid : u + 1 = 2 ^ 32
  · rw [has_edge_last hvalid hid, has_edge_last hg hid, hnone]
    simp
  · exact has_edge_apply_batch hg hb hid v

end Ids

-- Every graph without the last id is rebuilt exactly. Of the others only those are in
-- which no vertex before that id has an edge, by batches that insert nothing.
theorem apply_batch_exact (hg : graph.Valid)
    (hb : ∀ change ∈ batch.deletions ++ batch.insertions,
      change.source < graph.vertex_count ∧ change.target < graph.vertex_count)
    (hids : ∀ change ∈ batch.insertions, change.source < 2 ^ 32 ∧ change.target < 2 ^ 32) :
    RebuildsExactly graph batch ↔ graph.vertex_count < 2 ^ 32 ∨
      (∀ v, v + 1 < 2 ^ 32 → graph.row v = []) ∧ batch.insertions = [] := by
  constructor
  · intro h
    refine or_iff_not_imp_left.mpr fun hcount => ?_
    have hlast := Nat.le_of_not_lt hcount
    have hsearch := (h.searchable (2 ^ 32 - 1) (by decide)).1
    have hempty := (searchable_last hg rfl (Nat.lt_of_lt_of_le (by decide) hlast)).mp hsearch
    exact ⟨fun v hv => hempty v (by omega), no_insertions hg hb hids hlast h⟩
  · rintro (hcount | ⟨hempty, hnone⟩)
    · have hvalid := apply_batch_valid hg hb
      have heq := Rebuild.apply_batch_eq hg batch
      have hsearch : ∀ {other : DirectedGraph}, other.Valid →
          other.vertex_count = graph.vertex_count → ∀ u, other.Searchable u :=
        fun hother hsame u hu => searchable_of_ne hother (by omega) hu
      refine ⟨heq ▸ hvalid, heq ▸ rfl, fun u _ => ⟨hsearch hg rfl u, heq ▸ hsearch hvalid rfl u⟩,
        fun u _ v _ => ?_⟩
      rw [heq]
      by_cases hid : u + 1 = 2 ^ 32
      · have houtside : graph.vertex_count ≤ u := by omega
        have hnone : ⟨u, v⟩ ∉ batch.insertions := fun hins =>
          Nat.not_le_of_lt (hb _ (List.mem_append_right _ hins)).1 houtside
        rw [has_edge_last hvalid hid, has_edge_last hg hid]
        simpa using hnone
      · exact has_edge_apply_batch hg hb hid v
    · exact rebuilds_without_insertions hg hb hnone hempty

-- The rows of 0 and 2 change, the row of 1 is copied, and 3 has none.
theorem apply_batch_exact_sample :
    RebuildsExactly ⟨4, [0, 2, 3, 3, 3], [1, 2, 0]⟩
      ⟨[⟨0, 2⟩, ⟨0, 1⟩, ⟨3, 1⟩], [⟨2, 3⟩, ⟨0, 1⟩, ⟨2, 0⟩, ⟨2, 3⟩]⟩ :=
  (apply_batch_exact ⟨⟨rfl, rfl, by decide, rfl⟩, by decide, by decide⟩ (by decide)
    (by decide)).mpr (Or.inl (by decide))

-- A graph without edges.
def edgeless (vertex_count : Nat) : DirectedGraph :=
  ⟨vertex_count, List.replicate (vertex_count + 1) 0, []⟩

theorem edgeless_valid (vertex_count : Nat) : (edgeless vertex_count).Valid := by
  refine ⟨⟨List.length_replicate, ?_, ?_, ?_⟩, fun v _ => ?_, fun next hn => ?_⟩
  · simp [edgeless]
  · exact List.pairwise_replicate.mpr (Or.inr (Nat.le_refl 0))
  · simp [edgeless]
  · simp [edgeless, DirectedGraph.row, stored_row, List.extract]
  · cases hn

-- An edge from the last vertex of a graph without edges comes after empty rows.
theorem insert_last_start (last : Nat) :
    (apply_batch (edgeless (last + 1)) ⟨[], [⟨last, 0⟩]⟩).offsets.getD last 0 = 0 := by
  have hrows : ∀ source < last, touched ⟨[], [⟨last, 0⟩]⟩ source = false ∧
      (edgeless (last + 1)).row source = [] := fun source hs => by
    refine ⟨?_, by simp [edgeless, DirectedGraph.row, stored_row, List.extract]⟩
    simpa [touched] using Nat.ne_of_gt hs
  change (concat_rows ((List.range (last + 1)).map fun source => _)).1.getD last 0 = 0
  rw [concat_rows_eq, List.getD_eq_getElem _ _ (by simp), List.getElem_map, List.getElem_range,
    List.length_eq_zero_iff, List.flatten_eq_nil_iff]
  intro row hrow
  rw [← List.map_take, List.take_range, Nat.min_eq_left (Nat.le_succ last)] at hrow
  obtain ⟨source, hs, rfl⟩ := List.mem_map.mp hrow
  obtain ⟨htouched, hnil⟩ := hrows source (List.mem_range.mp hs)
  rw [htouched, if_neg Bool.false_ne_true]
  exact hnil

-- `has_edge` looks for the inserted edge in the empty range before it.
theorem apply_batch_lost :
    (edgeless (2 ^ 32)).Valid ∧
      (Rebuild.apply_batch (edgeless (2 ^ 32)) ⟨[], [⟨2 ^ 32 - 1, 0⟩]⟩).offsets.getD
        (2 ^ 32 - 1) 0 = 0 ∧
      has_edge (Rebuild.apply_batch (edgeless (2 ^ 32)) ⟨[], [⟨2 ^ 32 - 1, 0⟩]⟩)
        (2 ^ 32 - 1) 0 = false := by
  have hvalid := edgeless_valid (2 ^ 32)
  rw [Rebuild.apply_batch_eq hvalid]
  refine ⟨hvalid, insert_last_start (2 ^ 32 - 1), has_edge_last ?_ rfl 0⟩
  exact apply_batch_valid hvalid (List.forall_mem_singleton.mpr ⟨by decide, by decide⟩)

end Exact

end CycleEnum.Dynamic
