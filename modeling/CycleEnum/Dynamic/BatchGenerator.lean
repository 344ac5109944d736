import CycleEnum.Core.CompactIds
import CycleEnum.Dynamic.CyclesThroughEdge
import CycleEnum.Dynamic.GraphConversion

namespace CycleEnum.Dynamic

open CycleEnum.Sequential

-- The seed is what the draws below come from.
structure BatchParams where
  num_deletions : Nat
  num_insertions : Nat
  locality_window : Option Nat
deriving DecidableEq, Repr

-- What `std::uniform_int_distribution` and `std::shuffle` may give. `vertex first last` is the
-- sequence of the draws from one distribution.
structure Draws where
  start : Nat → Nat
  shuffle : List EdgeChange → List EdgeChange
  vertex : Nat → Nat → Nat → Nat
  start_le : ∀ last, start last ≤ last
  shuffle_perm : ∀ changes, (shuffle changes).Perm changes
  vertex_mem : ∀ first last, first ≤ last →
    ∀ index, first ≤ vertex first last index ∧ vertex first last index ≤ last

structure Gathered where
  existing : List Nat
  existing_edges : List EdgeChange

def gather_edge (source : Nat) (gathered : Gathered) (edge : AdjacencyEntry) : Gathered where
  existing := gathered.existing.insert (edge_key source edge.vertex)
  existing_edges := gathered.existing_edges ++ [⟨source, edge.vertex⟩]

-- The body of the loop over the sources.
def gather_row (graph : GraphView) (gathered : Gathered) (source : Nat) : Gathered :=
  (graph.outgoing_row source).foldl (gather_edge source) gathered

structure Window where
  window_lo : Nat
  window_hi : Nat

def Window.in_window (window : Window) (vertex : Nat) : Bool :=
  vertex ≥ window.window_lo && vertex < window.window_hi

def draw_window (draws : Draws) (vertex_count : Nat) (locality_window : Option Nat) : Window :=
  let whole := ⟨0, vertex_count % 2 ^ 32⟩
  match locality_window with
  | none => whole
  | some width =>
      if width < vertex_count then
        let window := max width 2
        if window < vertex_count then
          let start := draws.start (vertex_count - window)
          ⟨start % 2 ^ 32, (start + window) % 2 ^ 32⟩
        else whole
      else whole

def choose_deletions (draws : Draws) (existing_edges : List EdgeChange) (window : Window)
    (num_deletions : Nat) : Except Error (List EdgeChange) :=
  if num_deletions > 0 then
    let candidates := existing_edges.filter fun edge =>
      window.in_window edge.source && window.in_window edge.target
    if candidates.length < num_deletions then
      throw (.invalid_argument
        "not enough existing edges in the locality window for the requested deletions")
    else return (draws.shuffle candidates).take num_deletions
  else return []

-- The loop over the attempts. There is no result where the fuel runs out.
def sample_insertions (vertex : Nat → Nat) (existing : List Nat)
    (num_insertions attempt_cap : Nat) :
    Nat → Nat → Nat → List Nat → List EdgeChange → Option (Except Error (List EdgeChange))
  | 0, _, _, _, _ => none
  | fuel + 1, drawn, attempts, chosen, insertions =>
      if insertions.length < num_insertions then
        let attempts := (attempts + 1) % 2 ^ 64
        if attempts > attempt_cap then
          some (throw (.invalid_argument
            "could not sample enough non-edges in the locality window for the requested insertions"))
        else
          let source := vertex drawn % 2 ^ 32
          let target := vertex (drawn + 1) % 2 ^ 32
          let key := edge_key source target
          if source = target ∨ key ∈ existing ∨ key ∈ chosen then
            sample_insertions vertex existing num_insertions attempt_cap fuel (drawn + 2) attempts
              chosen insertions
          else
            sample_insertions vertex existing num_insertions attempt_cap fuel (drawn + 2) attempts
              (chosen.insert key) (insertions ++ [⟨source, target⟩])
      else some (return insertions)

def attempt_cap (num_insertions : Nat) (window : Window) : Nat :=
  (1000 * (num_insertions + 1) + 100 * ((window.window_hi + 2 ^ 32 - window.window_lo) % 2 ^ 32)) %
    2 ^ 64

def choose_insertions (draws : Draws) (fuel : Nat) (existing : List Nat) (window : Window)
    (num_insertions : Nat) : Option (Except Error (List EdgeChange)) :=
  if num_insertions > 0 then
    sample_insertions (draws.vertex window.window_lo ((window.window_hi + 2 ^ 64 - 1) % 2 ^ 64))
      existing num_insertions (attempt_cap num_insertions window) fuel 0 0 [] []
  else some (return [])

def generate_batch (draws : Draws) (fuel : Nat) (graph : GraphView) (params : BatchParams) :
    Option (Except Error EdgeBatch) :=
  if params.num_deletions = 0 ∧ params.num_insertions = 0 then some (return ⟨[], []⟩)
  else if graph.vertex_count < 2 then
    some (throw (.invalid_argument "batch generation requires at least two vertices"))
  else do
    let gathered ← vertex_loop graph.vertex_count (gather_row graph) fuel 0 ⟨[], []⟩
    let window := draw_window draws graph.vertex_count params.locality_window
    match choose_deletions draws gathered.existing_edges window params.num_deletions with
    | .error error => return throw error
    | .ok deletions =>
        match ← choose_insertions draws fuel gathered.existing window params.num_insertions with
        | .error error => return throw error
        | .ok insertions => return return normalize ⟨deletions, insertions⟩

def edges_before (graph : DirectedGraph) (n : Nat) : List EdgeChange :=
  (List.range n).flatMap fun source => (graph.row source).map fun target => ⟨source, target⟩

section Edges

variable {graph : DirectedGraph} {batch : EdgeBatch}

theorem edges_before_length (hg : graph.Valid) :
    (edges_before graph graph.vertex_count).length = graph.neighbors.length := by
  rw [← edge_count_temporal_graph hg, TemporalGraph.edge_count, temporal_graph, edges_before]
  simp only [List.length_flatMap, List.length_map]

theorem mem_edges_before (hg : graph.WellFormed) {change : EdgeChange} :
    change ∈ edges_before graph graph.vertex_count ↔ change.target ∈ graph.row change.source := by
  rw [edges_before, List.mem_flatMap]
  constructor
  · intro h
    obtain ⟨source, -, hrow⟩ := h
    obtain ⟨target, htarget, rfl⟩ := List.mem_map.mp hrow
    exact htarget
  · intro h
    exact ⟨change.source, List.mem_range.mpr (hg.source_lt h), List.mem_map.mpr ⟨_, h, rfl⟩⟩

theorem edges_before_nodup (hg : graph.WellFormed) (n : Nat) : (edges_before graph n).Nodup := by
  refine List.nodup_flatMap.mpr ⟨fun source _ => ?_, ?_⟩
  · exact (hg.row_nodup source).map fun a b h => (EdgeChange.mk.inj h).2
  · refine List.nodup_range.imp fun {a b} hne change ha hb => hne ?_
    obtain ⟨_, -, rfl⟩ := List.mem_map.mp ha
    obtain ⟨_, -, heq⟩ := List.mem_map.mp hb
    exact (EdgeChange.mk.inj heq).1.symm

-- Deletions of edges and insertions of others change the number of edges by their numbers.
theorem apply_batch_edge_count (hg : graph.WellFormed) (hvalid : graph.Valid)
    (hfits : batch.Fits graph) (hdeletions : batch.deletions.Nodup)
    (hinsertions : batch.insertions.Nodup)
    (hmissing : ∀ change ∈ batch.insertions, change.target ∉ graph.row change.source) :
    (apply_batch graph batch).neighbors.length + batch.deletions.length =
      graph.neighbors.length + batch.insertions.length := by
  have hnew := apply_batch_well_formed hg hfits
  have hmem := fun change => @mem_edges_before (apply_batch graph batch) hnew change
  rw [← edges_before_length hvalid, ← edges_before_length (apply_batch_valid hvalid hfits.vertices),
    ← List.length_append, ← List.length_append]
  apply List.Perm.length_eq
  refine (List.perm_ext_iff_of_nodup ?_ ?_).mpr fun change => ?_
  · refine (edges_before_nodup hnew _).append hdeletions fun change hedge hdeletion => ?_
    rcases (mem_apply_batch hg hfits).mp ((hmem change).mp hedge) with hold | hins
    · exact hold.2 hdeletion
    · exact hmissing change hins (hfits.deletions change hdeletion)
  · refine (edges_before_nodup hg _).append hinsertions fun change hedge hinsertion => ?_
    exact hmissing change hinsertion ((mem_edges_before hg).mp hedge)
  · rw [List.mem_append, List.mem_append, hmem, mem_edges_before hg, mem_apply_batch hg hfits]
    constructor
    · intro h
      rcases h with (hold | hins) | hdeletion
      · exact Or.inl hold.1
      · exact Or.inr hins
      · exact Or.inl (hfits.deletions change hdeletion)
    · intro h
      rcases h with hedge | hins
      · by_cases hdeletion : change ∈ batch.deletions
        · exact Or.inr hdeletion
        · exact Or.inl (Or.inl ⟨hedge, hdeletion⟩)
      · exact Or.inl (Or.inr hins)

theorem perm_sort_and_dedup {changes : List EdgeChange} (h : changes.Nodup) :
    (sort_and_dedup changes).Perm changes :=
  (List.perm_ext_iff_of_nodup (sort_and_dedup_nodup changes) h).mpr fun _ => mem_sort_and_dedup

end Edges

section Gather

variable {view : GraphView}

-- What the loop over the sources has after some of them: the edges, and the keys of all of them.
structure Gathered.Holds (gathered : Gathered) (edges : List EdgeChange) : Prop where
  gathered_edges : gathered.existing_edges = edges
  keys : ∀ change ∈ edges, edge_key change.source change.target ∈ gathered.existing

theorem gather_edge_holds {gathered : Gathered} {edges : List EdgeChange} (h : gathered.Holds edges)
    (source : Nat) (edge : AdjacencyEntry) :
    (gather_edge source gathered edge).Holds (edges ++ [⟨source, edge.vertex⟩]) := by
  refine ⟨by rw [gather_edge, h.gathered_edges], fun change hchange => ?_⟩
  rw [gather_edge, List.mem_insert_iff]
  rcases List.mem_append.mp hchange with hold | hnew
  · exact Or.inr (h.keys change hold)
  · rw [List.mem_singleton.mp hnew]
    exact Or.inl rfl

theorem foldl_gather_edge {gathered : Gathered} {edges : List EdgeChange}
    (h : gathered.Holds edges) (source : Nat) (entries : List AdjacencyEntry) :
    (entries.foldl (gather_edge source) gathered).Holds
      (edges ++ entries.map fun edge => ⟨source, edge.vertex⟩) := by
  induction entries generalizing gathered edges with
  | nil => rwa [List.map_nil, List.append_nil]
  | cons edge entries ih =>
      rw [List.foldl_cons, List.map_cons, List.append_cons]
      exact ih (gather_edge_holds h source edge)

theorem foldl_gather_row (hcount : view.vertex_count < 2 ^ 32) {n : Nat}
    (hn : n ≤ view.vertex_count) :
    ((List.range n).foldl (gather_row view) ⟨[], []⟩).Holds (edges_before (directed_of view) n) := by
  induction n with
  | zero => exact ⟨rfl, List.forall_mem_nil _⟩
  | succ n ih =>
      have hwhole : view.outgoing_row n = view.outgoing_entries n := narrow_row_eq (by omega)
      have hrow : ((directed_of view).row n).map (fun target => (⟨n, target⟩ : EdgeChange)) =
          (view.outgoing_row n).map fun edge => ⟨n, edge.vertex⟩ := by
        rw [directed_of_row, List.map_map, hwhole]
        rfl
      rw [List.range_succ, List.foldl_append, List.foldl_cons, List.foldl_nil, edges_before,
        List.range_succ, List.flatMap_append, List.flatMap_singleton, hrow, gather_row]
      exact foldl_gather_edge (ih (by omega)) n _

end Gather

section Window

variable {draws : Draws} {vertex_count : Nat} {locality_window : Option Nat}

structure Window.Within (window : Window) (vertex_count : Nat) (locality_window : Option Nat) :
    Prop where
  lo_lt : window.window_lo < window.window_hi
  hi_le : window.window_hi ≤ vertex_count
  width : ∀ width ∈ locality_window, max width 2 < vertex_count →
    window.window_hi = window.window_lo + max width 2

theorem draw_window_within (draws : Draws) (hmany : 2 ≤ vertex_count)
    (hcount : vertex_count < 2 ^ 32) (locality_window : Option Nat) :
    (draw_window draws vertex_count locality_window).Within vertex_count locality_window := by
  have hmod : vertex_count % 2 ^ 32 = vertex_count := Nat.mod_eq_of_lt hcount
  cases locality_window with
  | none =>
      rw [draw_window, hmod]
      exact ⟨Nat.lt_of_succ_lt hmany, Nat.le_refl _, fun width hwidth => nomatch hwidth⟩
  | some width =>
      simp only [draw_window, hmod]
      split_ifs with hwidth hwindow
      · have hstart := draws.start_le (vertex_count - max width 2)
        rw [Nat.mod_eq_of_lt (by omega), Nat.mod_eq_of_lt (by omega)]
        refine ⟨?_, ?_, fun other hother _ => ?_⟩
        · dsimp only
          omega
        · dsimp only
          omega
        · rw [Option.mem_some.mp hother]
      · refine ⟨Nat.lt_of_succ_lt hmany, Nat.le_refl _, fun other hother hless => ?_⟩
        rw [← Option.mem_some.mp hother] at hless
        exact absurd hless hwindow
      · refine ⟨Nat.lt_of_succ_lt hmany, Nat.le_refl _, fun other hother hless => ?_⟩
        rw [← Option.mem_some.mp hother] at hless
        omega

end Window

section Choose

variable {draws : Draws} {window : Window}

def Window.Confines (window : Window) (changes : List EdgeChange) : Prop :=
  ∀ change ∈ changes,
    window.in_window change.source = true ∧ window.in_window change.target = true

-- A result of the given kind, or the one exception of the generator.
def Rejects {α : Type} (result : Except Error α) (kind : α → Prop) : Prop :=
  (∃ what, result = .error (.invalid_argument what)) ∨ ∃ a, result = .ok a ∧ kind a

structure Deleted (edges : List EdgeChange) (window : Window) (num_deletions : Nat)
    (deletions : List EdgeChange) : Prop where
  count : deletions.length = num_deletions
  nodup : deletions.Nodup
  existing : ∀ change ∈ deletions, change ∈ edges
  confined : window.Confines deletions

theorem choose_deletions_rejects (draws : Draws) {edges : List EdgeChange} (hedges : edges.Nodup)
    (window : Window) (num_deletions : Nat) :
    Rejects (choose_deletions draws edges window num_deletions)
      (Deleted edges window num_deletions) := by
  unfold choose_deletions
  dsimp only
  split_ifs with hsome hfew
  · exact Or.inl ⟨_, rfl⟩
  · refine Or.inr ⟨_, rfl, ?_⟩
    have hperm := draws.shuffle_perm (edges.filter fun edge =>
      window.in_window edge.source && window.in_window edge.target)
    have hmem : ∀ change ∈ (draws.shuffle (edges.filter fun edge =>
        window.in_window edge.source && window.in_window edge.target)).take num_deletions,
        change ∈ edges ∧ window.in_window change.source = true ∧
          window.in_window change.target = true := by
      intro change hchange
      have := List.mem_filter.mp (hperm.mem_iff.mp (List.mem_of_mem_take hchange))
      rwa [Bool.and_eq_true] at this
    refine ⟨?_, ?_, fun change hchange => (hmem change hchange).1,
      fun change hchange => (hmem change hchange).2⟩
    · rw [List.length_take, hperm.length_eq]
      omega
    · exact (hperm.nodup_iff.mpr (hedges.filter _)).sublist (List.take_sublist _ _)
  · refine Or.inr ⟨[], rfl, ?_⟩
    refine ⟨?_, List.nodup_nil, List.forall_mem_nil _, List.forall_mem_nil _⟩
    rw [List.length_nil]
    omega

-- The insertions after some attempts.
structure Sampled (existing : List Nat) (window : Window) (chosen : List Nat)
    (insertions : List EdgeChange) : Prop where
  chosen : ∀ change ∈ insertions, edge_key change.source change.target ∈ chosen
  nodup : insertions.Nodup
  no_loop : ∀ change ∈ insertions, change.source ≠ change.target
  missing : ∀ change ∈ insertions, edge_key change.source change.target ∉ existing
  confined : window.Confines insertions

theorem sampled_nil (existing : List Nat) (window : Window) : Sampled existing window [] [] :=
  ⟨List.forall_mem_nil _, List.nodup_nil, List.forall_mem_nil _, List.forall_mem_nil _,
    List.forall_mem_nil _⟩

theorem Sampled.push {existing chosen : List Nat} {insertions : List EdgeChange}
    (h : Sampled existing window chosen insertions) {source target : Nat}
    (hfresh : ¬(source = target ∨ edge_key source target ∈ existing ∨
      edge_key source target ∈ chosen))
    (hsource : window.in_window source = true) (htarget : window.in_window target = true) :
    Sampled existing window (chosen.insert (edge_key source target))
      (insertions ++ [⟨source, target⟩]) := by
  rw [not_or, not_or] at hfresh
  obtain ⟨hloop, hmissing, hnew⟩ := hfresh
  have hcases : ∀ {holds : EdgeChange → Prop}, (∀ change ∈ insertions, holds change) →
      holds ⟨source, target⟩ → ∀ change ∈ insertions ++ [⟨source, target⟩], holds change := by
    intro holds hold hlast change hchange
    rcases List.mem_append.mp hchange with hchange | hchange
    · exact hold change hchange
    · rwa [List.mem_singleton.mp hchange]
  refine ⟨hcases (fun change hchange => ?_) ?_, ?_, hcases h.no_loop hloop,
    hcases h.missing hmissing, hcases h.confined ⟨hsource, htarget⟩⟩
  · exact List.mem_insert_of_mem (h.chosen change hchange)
  · exact List.mem_insert_self
  · refine List.nodup_append.mpr ⟨h.nodup, List.nodup_singleton _, fun change hchange last hlast => ?_⟩
    rw [List.mem_singleton.mp hlast]
    rintro rfl
    exact hnew (h.chosen ⟨source, target⟩ hchange)

structure Inserted (existing : List Nat) (window : Window) (num_insertions : Nat)
    (insertions : List EdgeChange) : Prop where
  count : insertions.length = num_insertions
  sampled : ∃ chosen, Sampled existing window chosen insertions

-- One attempt more than the cap ends the loop, and the counter does not wrap before it.
theorem sample_insertions_rejects {vertex : Nat → Nat} {existing : List Nat}
    {num_insertions attempt_cap : Nat}
    (hvertex : ∀ index, window.in_window (vertex index % 2 ^ 32) = true)
    (hcap : attempt_cap + 1 < 2 ^ 64) (fuel : Nat) {drawn attempts : Nat} {chosen : List Nat}
    {insertions : List EdgeChange} (hattempts : attempts ≤ attempt_cap)
    (hfuel : attempt_cap + 1 < fuel + attempts) (hcount : insertions.length ≤ num_insertions)
    (h : Sampled existing window chosen insertions) :
    ∃ result, sample_insertions vertex existing num_insertions attempt_cap fuel drawn attempts
        chosen insertions = some result ∧
      Rejects result (Inserted existing window num_insertions) := by
  induction fuel generalizing drawn attempts chosen insertions with
  | zero => omega
  | succ fuel ih =>
      have hnext : (attempts + 1) % 2 ^ 64 = attempts + 1 := Nat.mod_eq_of_lt (by omega)
      rw [sample_insertions]
      dsimp only
      rw [hnext]
      split_ifs with hmore hover hskip
      · exact ⟨_, rfl, Or.inl ⟨_, rfl⟩⟩
      · exact ih (by omega) (by omega) hcount h
      · refine ih (by omega) (by omega) ?_ (h.push hskip (hvertex _) (hvertex _))
        rw [List.length_append, List.length_singleton]
        omega
      · exact ⟨_, rfl, Or.inr ⟨insertions, rfl, by omega, chosen, h⟩⟩

-- The cap is a multiple of 4, so that it is not the last 64-bit number.
theorem attempt_cap_lt (num_insertions : Nat) (window : Window) :
    attempt_cap num_insertions window + 1 < 2 ^ 64 := by
  unfold attempt_cap
  omega

theorem choose_insertions_rejects (draws : Draws) (existing : List Nat) (num_insertions : Nat)
    (hlo : window.window_lo < window.window_hi) (hhi : window.window_hi < 2 ^ 32) {fuel : Nat}
    (hfuel : attempt_cap num_insertions window + 1 < fuel) :
    ∃ result, choose_insertions draws fuel existing window num_insertions = some result ∧
      Rejects result (Inserted existing window num_insertions) := by
  unfold choose_insertions
  split_ifs with hsome
  · have hlast : (window.window_hi + 2 ^ 64 - 1) % 2 ^ 64 = window.window_hi - 1 := by omega
    have hvertex : ∀ index, window.in_window
        (draws.vertex window.window_lo (window.window_hi - 1) index % 2 ^ 32) = true := by
      intro index
      have := draws.vertex_mem window.window_lo (window.window_hi - 1) (by omega) index
      rw [Nat.mod_eq_of_lt (by omega)]
      simp only [Window.in_window, Bool.and_eq_true, decide_eq_true_eq]
      omega
    rw [hlast]
    exact sample_insertions_rejects hvertex (attempt_cap_lt num_insertions window) fuel
      (Nat.zero_le _) (by omega) (Nat.zero_le _) (sampled_nil existing window)
  · refine ⟨_, rfl, Or.inr ⟨[], rfl, ?_, [], sampled_nil existing window⟩⟩
    rw [List.length_nil]
    omega

end Choose

section Batch

variable {view : GraphView} {params : BatchParams} {draws : Draws}

-- What the generator promises of a batch. The window counts only where it is smaller than
-- the graph, and the batch is one that the updates expect.
structure Generated (view : GraphView) (params : BatchParams) (batch : EdgeBatch) : Prop where
  deletion_count : batch.deletions.length = params.num_deletions
  insertion_count : batch.insertions.length = params.num_insertions
  deletions : ∀ change ∈ batch.deletions, Arc view change.source change.target
  insertions : ∀ change ∈ batch.insertions,
    ¬Arc view change.source change.target ∧ change.source ≠ change.target
  deletions_ascending : batch.deletions.Pairwise fun a b => EdgeChange.lt a b = true
  insertions_ascending : batch.insertions.Pairwise fun a b => EdgeChange.lt a b = true
  local_ : ∀ width ∈ params.locality_window, max width 2 < view.vertex_count →
    ∃ first, first + max width 2 ≤ view.vertex_count ∧
      ∀ change ∈ batch.deletions ++ batch.insertions,
        (first ≤ change.source ∧ change.source < first + max width 2) ∧
          first ≤ change.target ∧ change.target < first + max width 2
  applied : ∀ fuel graph, build_directed_graph fuel view = some graph →
    batch.Fits graph ∧
      (apply_batch graph batch).neighbors.length + params.num_deletions =
        view.edge_count + params.num_insertions

def AlwaysGenerates (view : GraphView) (params : BatchParams) : Prop :=
  ∀ draws, ∃ fuel result, generate_batch draws fuel view params = some result ∧
    Rejects result (Generated view params)

theorem arc_directed_of (view : GraphView) (a b : Nat) :
    Arc view a b ↔ b ∈ (directed_of view).row a := by
  rw [directed_of_row, Arc]
  simp only [List.mem_map]

theorem in_window_iff {window : Window} {vertex : Nat} :
    window.in_window vertex = true ↔ window.window_lo ≤ vertex ∧ vertex < window.window_hi := by
  simp [Window.in_window]

theorem applied_edge_count (hview : Parsed view) (hcount : view.vertex_count < 2 ^ 32)
    {batch : EdgeBatch} (hfits : batch.Fits (directed_of view)) (hdeletions : batch.deletions.Nodup)
    (hinsertions : batch.insertions.Nodup)
    (hmissing : ∀ change ∈ batch.insertions,
      change.target ∉ (directed_of view).row change.source) :
    (apply_batch (directed_of view) batch).neighbors.length + batch.deletions.length =
      view.edge_count + batch.insertions.length := by
  rw [apply_batch_edge_count (directed_of_well_formed hview hcount)
    (directed_of_valid hview hcount) hfits hdeletions hinsertions hmissing, directed_of, List.length_map]
  rfl

-- The sampled edges are none of the graph's own.
theorem Inserted.missing (hview : Parsed view) (hcount : view.vertex_count < 2 ^ 32)
    {window : Window} {existing : List Nat} {insertions : List EdgeChange}
    (hexisting : ∀ change ∈ edges_before (directed_of view) view.vertex_count,
      edge_key change.source change.target ∈ existing)
    (hinserted : Inserted existing window params.num_insertions insertions) :
    ∀ change ∈ insertions, change.target ∉ (directed_of view).row change.source := by
  intro change hchange hrow
  obtain ⟨chosen, hsampled⟩ := hinserted.sampled
  have hwell := directed_of_well_formed hview hcount
  exact hsampled.missing change hchange (hexisting change ((mem_edges_before hwell).mpr hrow))

-- Choices that keep to the graph and to a window in it are a batch for that graph.
theorem fits_of_choices (hview : Parsed view) (hcount : view.vertex_count < 2 ^ 32)
    {window : Window} (hwindow : window.Within view.vertex_count params.locality_window)
    {existing : List Nat} {deletions insertions : List EdgeChange}
    (hexisting : ∀ change ∈ edges_before (directed_of view) view.vertex_count,
      edge_key change.source change.target ∈ existing)
    (hdeleted : Deleted (edges_before (directed_of view) view.vertex_count) window
      params.num_deletions deletions)
    (hinserted : Inserted existing window params.num_insertions insertions) :
    (⟨deletions, insertions⟩ : EdgeBatch).Fits (directed_of view) := by
  have hwell := directed_of_well_formed hview hcount
  obtain ⟨chosen, hsampled⟩ := hinserted.sampled
  have hedge : ∀ change ∈ deletions, change.target ∈ (directed_of view).row change.source :=
    fun change hchange => (mem_edges_before hwell).mp (hdeleted.existing change hchange)
  refine ⟨fun change hchange => ?_, fun change hchange => ?_, hedge,
    fun change hchange => Or.inl (hinserted.missing hview hcount hexisting change hchange)⟩
  · have := hwindow.hi_le
    obtain ⟨hsource, htarget⟩ := (List.mem_append.mp hchange).elim (hdeleted.confined change)
      (hsampled.confined change)
    rw [in_window_iff] at hsource htarget
    exact ⟨lt_of_lt_of_le hsource.2 this, lt_of_lt_of_le htarget.2 this⟩
  · rcases List.mem_append.mp hchange with hdeletion | hinsertion
    · intro heq
      have hrow := hedge change hdeletion
      rw [heq] at hrow
      exact hwell.no_loop _ hrow
    · exact hsampled.no_loop change hinsertion

-- Choices that keep to the graph and to a window in it make a batch as promised.
theorem generated_of_choices (hview : Parsed view) (hcount : view.vertex_count < 2 ^ 32)
    {window : Window} (hwindow : window.Within view.vertex_count params.locality_window)
    {existing : List Nat} {deletions insertions : List EdgeChange}
    (hexisting : ∀ change ∈ edges_before (directed_of view) view.vertex_count,
      edge_key change.source change.target ∈ existing)
    (hdeleted : Deleted (edges_before (directed_of view) view.vertex_count) window
      params.num_deletions deletions)
    (hinserted : Inserted existing window params.num_insertions insertions) :
    Generated view params (normalize ⟨deletions, insertions⟩) := by
  have hfits := fits_of_choices hview hcount hwindow hexisting hdeleted hinserted
  have hmissing := hinserted.missing hview hcount hexisting
  obtain ⟨chosen, hsampled⟩ := hinserted.sampled
  have hdeletions := perm_sort_and_dedup hdeleted.nodup
  have hinsertions := perm_sort_and_dedup hsampled.nodup
  refine ⟨?_, ?_, fun change hchange => ?_, fun change hchange => ?_,
    sort_and_dedup_ascending deletions, sort_and_dedup_ascending insertions,
    fun width hwidth hless => ?_, fun fuel graph hbuild => ?_⟩
  · rw [normalize, hdeletions.length_eq, hdeleted.count]
  · rw [normalize, hinsertions.length_eq, hinserted.count]
  · rw [arc_directed_of]
    exact hfits.deletions change (mem_sort_and_dedup.mp hchange)
  · rw [arc_directed_of]
    have hchange := mem_sort_and_dedup.mp hchange
    exact ⟨hmissing change hchange, hsampled.no_loop change hchange⟩
  · have hhi := hwindow.width width hwidth hless
    have := hwindow.hi_le
    refine ⟨window.window_lo, by omega, fun change hchange => ?_⟩
    rw [List.mem_append, normalize, mem_sort_and_dedup, mem_sort_and_dedup] at hchange
    obtain ⟨hsource, htarget⟩ := hchange.elim (hdeleted.confined change) (hsampled.confined change)
    rw [in_window_iff, hhi] at hsource htarget
    exact ⟨hsource, htarget⟩
  · obtain ⟨-, rfl⟩ := (build_parsed_iff hview).mp ⟨fuel, hbuild⟩
    have hnormal := normalize_fits hfits
    have hedges := applied_edge_count hview hcount hnormal (sort_and_dedup_nodup deletions)
      (sort_and_dedup_nodup insertions) fun change hchange =>
        hmissing change (mem_sort_and_dedup.mp hchange)
    rw [normalize, hdeletions.length_eq, hdeleted.count, hinsertions.length_eq,
      hinserted.count] at hedges
    exact ⟨hnormal, hedges⟩

theorem generated_empty (hview : Parsed view)
    (hnone : params.num_deletions = 0 ∧ params.num_insertions = 0) :
    Generated view params ⟨[], []⟩ := by
  obtain ⟨hdeletions, hinsertions⟩ := hnone
  refine ⟨hdeletions.symm, hinsertions.symm, List.forall_mem_nil _, List.forall_mem_nil _,
    List.Pairwise.nil, List.Pairwise.nil, fun width _ hless => ?_, fun fuel graph hbuild => ?_⟩
  · exact ⟨0, by omega, List.forall_mem_nil _⟩
  · obtain ⟨hcount, rfl⟩ := (build_parsed_iff hview).mp ⟨fuel, hbuild⟩
    have hfits : EdgeBatch.Fits ⟨[], []⟩ (directed_of view) :=
      ⟨List.forall_mem_nil _, List.forall_mem_nil _, List.forall_mem_nil _, List.forall_mem_nil _⟩
    have hedges := applied_edge_count hview hcount hfits List.nodup_nil List.nodup_nil
      (List.forall_mem_nil _)
    rw [hdeletions, hinsertions]
    exact ⟨hfits, hedges⟩

theorem generate_nothing (hview : Parsed view)
    (hnone : params.num_deletions = 0 ∧ params.num_insertions = 0) (draws : Draws) :
    ∃ fuel result, generate_batch draws fuel view params = some result ∧
      Rejects result (Generated view params) := by
  refine ⟨0, .ok ⟨[], []⟩, ?_, Or.inr ⟨_, rfl, generated_empty hview hnone⟩⟩
  rw [generate_batch, if_pos hnone]
  rfl

-- What follows the loop over the sources.
theorem generate_batch_run (hsome : ¬(params.num_deletions = 0 ∧ params.num_insertions = 0))
    (hmany : ¬view.vertex_count < 2) {gathered : Gathered} {fuel : Nat}
    (hloop : vertex_loop view.vertex_count (gather_row view) fuel 0 ⟨[], []⟩ = some gathered) :
    generate_batch draws fuel view params =
      match choose_deletions draws gathered.existing_edges
        (draw_window draws view.vertex_count params.locality_window) params.num_deletions with
      | .error error => some (.error error)
      | .ok deletions =>
          (choose_insertions draws fuel gathered.existing
            (draw_window draws view.vertex_count params.locality_window)
            params.num_insertions).map
            (Except.map fun insertions => normalize ⟨deletions, insertions⟩) := by
  rw [generate_batch, if_neg hsome, if_neg hmany, hloop, Option.bind_eq_bind, Option.bind_some]
  dsimp only
  cases choose_deletions draws gathered.existing_edges
    (draw_window draws view.vertex_count params.locality_window) params.num_deletions with
  | error error => rfl
  | ok deletions =>
      dsimp only
      cases choose_insertions draws fuel gathered.existing
          (draw_window draws view.vertex_count params.locality_window) params.num_insertions with
      | none => rfl
      | some result =>
          cases result with
          | error error => rfl
          | ok insertions => rfl

-- With fewer than 2^32 vertices both loops end.
theorem generate_batch_rejects (hview : Parsed view) (hcount : view.vertex_count < 2 ^ 32)
    (params : BatchParams) (draws : Draws) :
    ∃ fuel result, generate_batch draws fuel view params = some result ∧
      Rejects result (Generated view params) := by
  by_cases hnone : params.num_deletions = 0 ∧ params.num_insertions = 0
  · exact generate_nothing hview hnone draws
  · by_cases hfew : view.vertex_count < 2
    · have hrun : generate_batch draws 0 view params =
          some (.error (.invalid_argument "batch generation requires at least two vertices")) := by
        rw [generate_batch, if_neg hnone, if_pos hfew]
        rfl
      exact ⟨0, _, hrun, Or.inl ⟨_, rfl⟩⟩
    · have hwindow := draw_window_within draws (Nat.le_of_not_lt hfew) hcount params.locality_window
      have hgathered := foldl_gather_row hcount (Nat.le_refl view.vertex_count)
      have hhi := lt_of_le_of_lt hwindow.hi_le hcount
      obtain ⟨fuel, hvertices, hattempts⟩ : ∃ fuel, view.vertex_count < fuel ∧
          attempt_cap params.num_insertions
            (draw_window draws view.vertex_count params.locality_window) + 1 < fuel :=
        ⟨_, Nat.lt_succ_of_le (Nat.le_max_left _ _), Nat.lt_succ_of_le (Nat.le_max_right _ _)⟩
      have hloop := vertex_loop_eq hcount (gather_row view) (Nat.zero_le _) hvertices ⟨[], []⟩
      rw [Nat.sub_zero, ← List.range_eq_range'] at hloop
      have hdeletions := choose_deletions_rejects draws
        (edges_before_nodup (directed_of_well_formed hview hcount) view.vertex_count)
        (draw_window draws view.vertex_count params.locality_window) params.num_deletions
      rw [← hgathered.gathered_edges] at hdeletions
      obtain ⟨result, hresult, hinsertions⟩ := choose_insertions_rejects draws
        ((List.range view.vertex_count).foldl (gather_row view) ⟨[], []⟩).existing
        params.num_insertions hwindow.lo_lt hhi hattempts
      have hrun := @generate_batch_run view params draws hnone hfew _ _ hloop
      rcases hdeletions with ⟨what, herror⟩ | ⟨deletions, hok, hdeleted⟩
      · rw [herror] at hrun
        exact ⟨fuel, _, hrun, Or.inl ⟨what, rfl⟩⟩
      · rw [hok] at hrun
        simp only [hresult, Option.map_some] at hrun
        rcases hinsertions with ⟨what, rfl⟩ | ⟨insertions, rfl, hinserted⟩
        · exact ⟨fuel, _, hrun, Or.inl ⟨what, rfl⟩⟩
        · rw [hgathered.gathered_edges] at hdeleted
          refine ⟨fuel, _, hrun, Or.inr ⟨_, rfl, ?_⟩⟩
          exact generated_of_choices hview hcount hwindow hgathered.keys hdeleted hinserted

-- The seeds choose among all draws, and one with them all at the bounds is enough here.
def first_draws : Draws where
  start _ := 0
  shuffle changes := changes
  vertex first _ _ := first
  start_le := Nat.zero_le
  shuffle_perm _ := List.Perm.refl _
  vertex_mem first _ h _ := ⟨Nat.le_refl first, h⟩

-- From 2^32 vertices on the loop that gathers the edges does not end.
theorem generate_batch_endless (hcount : 2 ^ 32 ≤ view.vertex_count)
    (hsome : ¬(params.num_deletions = 0 ∧ params.num_insertions = 0)) :
    ¬AlwaysGenerates view params := by
  intro h
  obtain ⟨fuel, result, hresult, -⟩ := h first_draws
  rw [generate_batch, if_neg hsome, if_neg (by omega),
    vertex_loop_endless hcount _ _ (by decide)] at hresult
  cases hresult

-- The generator keeps its promise, for every outcome of the draws, exactly where its loop over
-- the sources ends or nothing is asked of it.
theorem generate_batch_iff (hview : Parsed view) (params : BatchParams) :
    AlwaysGenerates view params ↔ view.vertex_count < 2 ^ 32 ∨
      (params.num_deletions = 0 ∧ params.num_insertions = 0) := by
  constructor
  · intro h
    by_contra hno
    rw [not_or] at hno
    exact generate_batch_endless (Nat.le_of_not_lt hno.1) hno.2 h
  · intro h draws
    rcases h with hcount | hnone
    · exact generate_batch_rejects hview hcount params draws
    · exact generate_nothing hview hnone draws

theorem generate_batch_iff_sample :
    AlwaysGenerates (view_of sample_rows) ⟨2, 1, some 3⟩ ↔
      (view_of sample_rows).vertex_count < 2 ^ 32 ∨
        ((⟨2, 1, some 3⟩ : BatchParams).num_deletions = 0 ∧
          (⟨2, 1, some 3⟩ : BatchParams).num_insertions = 0) :=
  generate_batch_iff sample_parsed ⟨2, 1, some 3⟩

-- 2^31 edges, each with two vertices of its own.
theorem generate_batch_endless_wide :
    Parsed (view_of ((List.range (2 ^ 31)).map wide_row)) ∧
      ¬AlwaysGenerates (view_of ((List.range (2 ^ 31)).map wide_row)) ⟨1, 0, none⟩ := by
  have hrows : (List.range (2 ^ 31)).map wide_row = wide_rows (2 ^ 31) [] :=
    (List.append_nil _).symm
  have hfew : Few (2 ^ 31) [] := .nil (by decide)
  rw [hrows]
  refine ⟨wide_parsed hfew (by decide), generate_batch_endless ?_ fun hnone =>
    absurd hnone.1 (by decide)⟩
  exact (wide_vertex_count hfew).ge

end Batch

end CycleEnum.Dynamic
