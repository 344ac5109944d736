import CycleEnum.Dynamic.UpdateSequential
import CycleEnum.Enumeration.SimplePaths

namespace CycleEnum.Dynamic

open CycleEnum.Enumeration

-- A call, with the arguments that its caller passes.
structure EdgeCall where
  graph : DirectedGraph
  changes : List EdgeChange
  change : EdgeChange
  owner_id : Nat
  max_length : Nat
  counts : List Nat

namespace EdgeCall

def run (call : EdgeCall) (buffer : VisitedBuffer) : Except Error (List Nat × VisitedBuffer) :=
  count_cycles_through_edge call.graph call.change.source call.change.target call.owner_id
    (ChangedEdgeIndex.of_changes call.changes) call.max_length call.counts buffer

-- The arcs that the call may cross.
def Crosses (call : EdgeCall) (a b : Nat) : Prop :=
  b ∈ call.graph.row a ∧ ⟨a, b⟩ ∉ call.changes.take call.owner_id

structure Valid (call : EdgeCall) : Prop where
  sorted : call.graph.Sorted
  narrow : ∀ change ∈ call.changes, change.target < 2 ^ 32
  source_lt : call.change.source < call.graph.vertex_count
  target_lt : call.change.target < call.graph.vertex_count
  distinct : call.change.source ≠ call.change.target
  room : call.max_length < call.counts.length
  words : ∀ count ∈ call.counts, count < 2 ^ 64

-- The paths that a call is to count.
def paths (call : EdgeCall) (k : Nat) : Set (List Nat) :=
  simple_paths call.Crosses call.change.target call.change.source k

-- None of them goes on from the vertex of the last id.
def Seen (call : EdgeCall) : Prop :=
  ∀ k, 2 ≤ k → k ≤ call.max_length → ∀ path ∈ call.paths k, 2 ^ 32 - 1 ∉ path.dropLast

-- Their number fits a count.
def Fits (call : EdgeCall) : Prop := ∀ k ≤ call.max_length, (call.paths k).ncard < 2 ^ 64

-- Every length that the call is asked for gains its paths, and nothing else changes.
def Adds (call : EdgeCall) (counts : List Nat) : Prop :=
  counts.length = call.counts.length ∧ ∀ k < counts.length, counts.getD k 0 =
    (call.counts.getD k 0 + if 2 ≤ k ∧ k ≤ call.max_length then (call.paths k).ncard else 0) % 2 ^ 64

end EdgeCall

-- The calls of one thread. They share its buffer.
def run_calls : List EdgeCall → VisitedBuffer → Except Error (List (List Nat) × VisitedBuffer)
  | [], buffer => return ([], buffer)
  | call :: calls, buffer => do
      let (counts, buffer) ← call.run buffer
      let (results, buffer) ← run_calls calls buffer
      return (counts :: results, buffer)

-- A call for every owner of a phase, all with the same counts.
def count_owners (graph : DirectedGraph) (changes : List EdgeChange) (max_length : Nat)
    (counts : List Nat) (buffer : VisitedBuffer) : Except Error (List Nat × VisitedBuffer) :=
  changes.zipIdx.foldlM (fun (counts, buffer) (change, owner_id) =>
    count_cycles_through_edge graph change.source change.target owner_id
      (ChangedEdgeIndex.of_changes changes) max_length counts buffer) (counts, buffer)

section Call

variable {graph : DirectedGraph} {changes : List EdgeChange} {change : EdgeChange}
  {owner_id max_length : Nat}

-- The arcs that a search sees.
def reads (graph : DirectedGraph) (changes : List EdgeChange) (owner_id a b : Nat) : Prop :=
  b ∈ graph.read_row a ∧ ⟨a, b⟩ ∉ changes.take owner_id

-- It sees the paths that do not go on from the vertex of the last id.
theorem chain_reads_iff (hstart : graph.offsets.getD 0 0 = 0) (path : List Nat) :
    path.IsChain (reads graph changes owner_id) ↔
      path.IsChain (fun a b => b ∈ graph.row a ∧ ⟨a, b⟩ ∉ changes.take owner_id) ∧
        2 ^ 32 - 1 ∉ path.dropLast := by
  induction path with
  | nil => simp
  | cons a rest ih =>
      cases rest with
      | nil => simp
      | cons b rest =>
          have hread : b ∈ graph.read_row a ↔ a + 1 ≠ 2 ^ 32 ∧ b ∈ graph.row a :=
            mem_narrow_row_iff hstart
          rw [List.isChain_cons_cons, List.isChain_cons_cons, ih, List.dropLast_cons_cons, List.mem_cons,
            reads, hread, show a + 1 ≠ 2 ^ 32 ↔ ¬2 ^ 32 - 1 = a by omega]
          tauto

theorem simple_paths_reads (hstart : graph.offsets.getD 0 0 = 0) (source target k : Nat) :
    simple_paths (reads graph changes owner_id) source target k =
      {path ∈ simple_paths (fun a b => b ∈ graph.row a ∧ ⟨a, b⟩ ∉ changes.take owner_id) source
        target k | 2 ^ 32 - 1 ∉ path.dropLast} := by
  ext path
  simp only [simple_paths, Set.mem_ofPred_eq, chain_reads_iff hstart]
  tauto

-- Closings have two vertices or more, and never more than the cap.
theorem length_owned_closings (hne : change.source ≠ change.target) {closed : List Nat}
    (hm : closed ∈ owned_closings graph changes max_length change owner_id) :
    2 ≤ closed.length ∧ closed.length ≤ max_length := by
  unfold owned_closings at hm
  split_ifs at hm with hmax
  · cases hm
  · have hcloses := closes_of_mem_closings graph.vertex_count _ closed (by simpa using hne.symm) hm
    have htwo := hcloses.suffix.length_le
    simp only [List.length_cons, List.length_nil] at htwo
    refine ⟨htwo, ?_⟩
    rcases hcloses.capped with rfl | hle
    · simp only [List.length_cons, List.length_nil]
      omega
    · exact hle max_length rfl

theorem ncard_owned_paths (hg : graph.Sorted) (hchanges : ∀ c ∈ changes, c.target < 2 ^ 32)
    (hne : change.source ≠ change.target) {k : Nat} :
    (owned_closings graph changes max_length change owner_id).countP (·.length = k) =
      if 2 ≤ k ∧ k ≤ max_length then
        (simple_paths (reads graph changes owner_id) change.target change.source k).ncard
      else 0 := by
  split_ifs with hk
  · have hrel : reads graph changes owner_id =
        fun a b => b ∈ succ_avoiding graph.read_row ((changes.take owner_id).map arc_of) a := by
      funext a b
      rw [mem_succ_avoiding, mem_arcs, reads]
    rw [owned_closings, if_neg (by omega), owned_successors_read hg hchanges, hrel]
    refine (ncard_simple_paths graph.vertex_count (fun a => (hg.read_nodup a).filter _) hne.symm
      (fun a b hb => List.mem_range.mpr (hg.read_bounded a b (mem_succ_avoiding.mp hb).1))
      (by simp) (by simpa using hk.2)).symm
  · refine List.countP_eq_zero.mpr fun closed hm => ?_
    have := length_owned_closings hne hm
    simp only [decide_eq_true_eq]
    omega

namespace EdgeCall

variable {call : EdgeCall}

theorem crosses_eq (call : EdgeCall) : call.Crosses = fun a b =>
    b ∈ succ_avoiding call.graph.row ((call.changes.take call.owner_id).map arc_of) a := by
  funext a b
  rw [mem_succ_avoiding, mem_arcs]
  rfl

theorem Valid.paths_finite (h : call.Valid) (k : Nat) : (call.paths k).Finite := by
  rw [paths, call.crosses_eq]
  exact simple_paths_finite h.distinct.symm fun a b hb =>
    List.mem_range.mpr (h.sorted.bounded a b (mem_succ_avoiding.mp hb).1)

-- Below 2^32 vertices no vertex has the last id.
theorem Valid.seen (h : call.Valid) (hids : call.graph.vertex_count < 2 ^ 32) : call.Seen := by
  intro k _ _ path hpath
  have hreads := @chain_reads_iff call.graph call.changes call.owner_id h.sorted.start path
  have hsame : reads call.graph call.changes call.owner_id = call.Crosses := by
    funext a b
    rw [reads, h.sorted.whole hids]
    rfl
  rw [hsame] at hreads
  exact (hreads.mp hpath.2.2.2.2).2

-- What a call finds: the paths that it sees to their ends.
def seen_paths (call : EdgeCall) (k : Nat) : Set (List Nat) :=
  {path ∈ call.paths k | 2 ^ 32 - 1 ∉ path.dropLast}

def AddsSeen (call : EdgeCall) (counts : List Nat) : Prop :=
  counts.length = call.counts.length ∧ ∀ k < counts.length, counts.getD k 0 =
    (call.counts.getD k 0 + if 2 ≤ k ∧ k ≤ call.max_length then (call.seen_paths k).ncard
      else 0) % 2 ^ 64

theorem Valid.ncard_closings (h : call.Valid) (k : Nat) :
    (owned_closings call.graph call.changes call.max_length call.change call.owner_id).countP
        (·.length = k) =
      if 2 ≤ k ∧ k ≤ call.max_length then (call.seen_paths k).ncard else 0 := by
  rw [ncard_owned_paths h.sorted h.narrow h.distinct, simple_paths_reads h.sorted.start]
  rfl

theorem Valid.run_adds (h : call.Valid) {buffer : VisitedBuffer}
    (hclear : buffer.visited = Flags.none) :
    ∃ counts buffer', call.run buffer = .ok (counts, buffer') ∧ call.AddsSeen counts ∧
      buffer'.visited = Flags.none := by
  obtain ⟨buffer', hrun, hclear'⟩ := count_cycles_through_edge_ok call.changes call.change
    call.owner_id call.max_length h.sorted.read_bounded h.source_lt h.target_lt call.counts hclear
  refine ⟨_, buffer', hrun, ⟨length_count_all _ _, fun k hk => ?_⟩, hclear'⟩
  rw [length_count_all] at hk
  have hword : call.counts.getD k 0 < 2 ^ 64 := by
    rw [List.getD_eq_getElem _ _ hk]
    exact h.words _ (List.getElem_mem hk)
  rw [count_all_getD_mod _ _ hk hword, h.ncard_closings]

theorem Valid.ncard_seen_le (h : call.Valid) (k : Nat) :
    (call.seen_paths k).ncard ≤ (call.paths k).ncard :=
  Set.ncard_le_ncard (Set.sep_subset _ _) (h.paths_finite k)

-- A call sees all its paths where it sees as many as there are.
theorem Valid.seen_of_ncard (h : call.Valid) (hle : ∀ k, 2 ≤ k → k ≤ call.max_length →
    (call.paths k).ncard ≤ (call.seen_paths k).ncard) : call.Seen := by
  intro k htwo hk path hpath
  have hsub : call.seen_paths k ⊆ call.paths k := Set.sep_subset _ _
  rw [← Set.eq_of_subset_of_ncard_le hsub (hle k htwo hk) (h.paths_finite k)] at hpath
  exact hpath.2

theorem Seen.eq (h : call.Seen) {k : Nat} (htwo : 2 ≤ k) (hk : k ≤ call.max_length) :
    call.seen_paths k = call.paths k := Set.sep_eq_self_iff_mem_true.mpr (h k htwo hk)

theorem Seen.adds (h : call.Seen) {counts : List Nat} (hadds : call.AddsSeen counts) :
    call.Adds counts := by
  refine ⟨hadds.1, fun k hk => ?_⟩
  rw [hadds.2 k hk]
  split_ifs with hlength
  · rw [h.eq hlength.1 hlength.2]
  · rfl

-- What the call adds is right only where nothing is lost.
theorem Valid.seen_of_adds (h : call.Valid) (hfit : call.Fits) {counts : List Nat}
    (hseen : call.AddsSeen counts) (hadds : call.Adds counts) : call.Seen := by
  refine h.seen_of_ncard fun k htwo hk => ?_
  have hplace : k < counts.length := by
    rw [hadds.1]
    exact Nat.lt_of_le_of_lt hk h.room
  have hsame := (hseen.2 k hplace).symm.trans (hadds.2 k hplace)
  rw [if_pos ⟨htwo, hk⟩, if_pos ⟨htwo, hk⟩] at hsame
  have hle := h.ncard_seen_le k
  have hlt := hfit k hk
  omega

end EdgeCall

-- Every call of a sequence adds the paths that it is to count.
def CallsExact (calls : List EdgeCall) (buffer : VisitedBuffer) : Prop :=
  ∃ results buffer', run_calls calls buffer = .ok (results, buffer') ∧
    List.Forall₂ EdgeCall.Adds calls results ∧ buffer'.visited = Flags.none

theorem run_calls_adds (calls : List EdgeCall) (h : ∀ call ∈ calls, call.Valid)
    {buffer : VisitedBuffer} (hclear : buffer.visited = Flags.none) :
    ∃ results buffer', run_calls calls buffer = .ok (results, buffer') ∧
      List.Forall₂ EdgeCall.AddsSeen calls results ∧ buffer'.visited = Flags.none := by
  induction calls generalizing buffer with
  | nil => exact ⟨[], buffer, rfl, List.Forall₂.nil, hclear⟩
  | cons call calls ih =>
      obtain ⟨counts, buffer₁, hcall, hadds, hclear₁⟩ := (h call (by simp)).run_adds hclear
      obtain ⟨results, buffer', hrun, hrest, hclear'⟩ :=
        ih (fun c hc => h c (List.mem_cons_of_mem _ hc)) hclear₁
      refine ⟨counts :: results, buffer', ?_, List.Forall₂.cons hadds hrest, hclear'⟩
      rw [run_calls, hcall]
      change (run_calls calls buffer₁).bind _ = _
      rw [hrun]
      rfl

theorem calls_exact_of_seen {calls : List EdgeCall} (h : ∀ call ∈ calls, call.Valid)
    {buffer : VisitedBuffer} (hclear : buffer.visited = Flags.none)
    (hseen : ∀ call ∈ calls, call.Seen) : CallsExact calls buffer := by
  obtain ⟨results, buffer', hrun, hadds, hclear'⟩ := run_calls_adds calls h hclear
  refine ⟨results, buffer', hrun, ?_, hclear'⟩
  rw [List.forall₂_iff_get] at hadds ⊢
  exact ⟨hadds.1, fun i hi hi' => (hseen _ (List.get_mem _ _)).adds (hadds.2 i hi hi')⟩

theorem seen_of_calls_exact {calls : List EdgeCall} (h : ∀ call ∈ calls, call.Valid)
    {buffer : VisitedBuffer} (hclear : buffer.visited = Flags.none)
    (hfit : ∀ call ∈ calls, call.Fits) (hexact : CallsExact calls buffer) :
    ∀ call ∈ calls, call.Seen := by
  obtain ⟨results, buffer', hrun, hseen, -⟩ := run_calls_adds calls h hclear
  obtain ⟨results', buffer'', hrun', hadds, -⟩ := hexact
  obtain ⟨rfl, -⟩ := Prod.mk.inj (Except.ok.inj (hrun'.symm.trans hrun))
  rw [List.forall₂_iff_get] at hseen hadds
  intro call hm
  obtain ⟨i, rfl⟩ := List.get_of_mem hm
  have hi : i.val < results'.length := hseen.1 ▸ i.isLt
  exact (h _ hm).seen_of_adds (hfit _ hm) (hseen.2 i i.isLt hi) (hadds.2 i i.isLt hi)

end Call

section Owners

variable {graph : DirectedGraph} {changes : List EdgeChange} {max_length : Nat}

theorem count_rounds_eq (max_length : Nat)
    (hbounded : ∀ a, ∀ next ∈ graph.read_row a, next < graph.vertex_count) (hc : ∀ change ∈ changes,
      change.source < graph.vertex_count ∧ change.target < graph.vertex_count)
    (rounds : List (EdgeChange × Nat)) (hrounds : ∀ round ∈ rounds, round.1 ∈ changes)
    (counts : List Nat) {buffer : VisitedBuffer} (hclear : buffer.visited = Flags.none) :
    ∃ buffer', rounds.foldlM (fun (counts, buffer) (change, owner_id) =>
        count_cycles_through_edge graph change.source change.target owner_id
          (ChangedEdgeIndex.of_changes changes) max_length counts buffer) (counts, buffer) =
        .ok (count_all counts (rounds.flatMap fun round =>
          owned_closings graph changes max_length round.1 round.2), buffer') ∧
      buffer'.visited = Flags.none := by
  induction rounds generalizing counts buffer with
  | nil => exact ⟨buffer, rfl, hclear⟩
  | cons round rounds ih =>
      obtain ⟨hs, ht⟩ := hc round.1 (hrounds round (by simp))
      obtain ⟨buffer₁, hone, hclear₁⟩ := count_cycles_through_edge_ok changes round.1 round.2
        max_length hbounded hs ht counts hclear
      obtain ⟨buffer', hrun, hclear'⟩ := ih (fun r hr => hrounds r (List.mem_cons_of_mem _ hr))
        (count_all counts (owned_closings graph changes max_length round.1 round.2)) hclear₁
      refine ⟨buffer', ?_, hclear'⟩
      rw [List.foldlM_cons, List.flatMap_cons, count_all_append, ← hrun]
      dsimp only
      rw [hone]
      rfl

-- The cycles of each length that use some of the changes.
def changed_cycles (graph : DirectedGraph) (changes : List EdgeChange) (k : Nat) :
    Set (Cycle Nat) :=
  {c ∈ cycles_of (fun a b => b ∈ graph.row a) k |
    ∃ change ∈ changes, Follows c change.source change.target}

theorem cycles_finite (hg : graph.Sorted) {k : Nat} (hk : 2 ≤ k) :
    (cycles_of (fun a b => b ∈ graph.row a) k).Finite :=
  cycles_of_finite
    (fun a b hb => List.mem_range.mpr (hg.bounded a b hb)) hk

-- The owners share out the cycles that use some of the changes.
theorem ncard_changed_cycles (hg : graph.Sorted) (changes : List EdgeChange) {k : Nat}
    (hk : 2 ≤ k) : (changed_cycles graph changes k).ncard = phase_number graph changes k := by
  have hfin := cycles_finite hg hk
  have hsplit := ncard_avoiding hfin (changes.map arc_of)
  rw [← phase_number_eq] at hsplit
  have hparts : (changed_cycles graph changes k) =
      cycles_of (fun a b => b ∈ graph.row a) k \
        {c ∈ cycles_of (fun a b => b ∈ graph.row a) k | Avoids (changes.map arc_of) c} := by
    ext c
    have havoid : Avoids (changes.map arc_of) c ↔
        ¬∃ change ∈ changes, Follows c change.source change.target := by
      simp [Avoids, arc_of]
    rw [changed_cycles, Set.mem_sdiff, Set.mem_ofPred_eq, Set.mem_ofPred_eq, havoid]
    constructor
    · exact fun hc => ⟨hc.1, fun hnone => hnone.2 hc.2⟩
    · exact fun hc => ⟨hc.1, by_contra fun hnone => hc.2 ⟨hc.1, hnone⟩⟩
  have hle := Set.ncard_le_ncard (fun c h => h.1 : {c ∈ cycles_of (fun a b => b ∈ graph.row a) k |
    Avoids (changes.map arc_of) c} ⊆ _) hfin
  rw [hparts, Set.ncard_sdiff (fun c h => h.1) (hfin.subset fun c h => h.1)]
  omega

theorem phase_number_eq_countP (hg : graph.Sorted) (hids : graph.vertex_count < 2 ^ 32)
    (hc : PhaseChanges graph changes)
    (hloops : ∀ change ∈ changes, change.source ≠ change.target) {k : Nat} (htwo : 2 ≤ max_length)
    (hcap : k ≤ max_length) :
    phase_number graph changes k = (changes.zipIdx.flatMap fun round =>
      owned_closings graph changes max_length round.1 round.2).countP (·.length = k) := by
  rw [List.countP_flatMap, phase_number]
  congr 1
  refine List.map_congr_left fun round hr => ?_
  have hm := List.fst_mem_of_mem_zipIdx hr
  rw [owned_number_eq hg hids hc.nodup (hc.narrow hg) hr (hc.edges _ hm) (hloops _ hm) hcap]
  simp only [Function.comp_apply, owned_closings, if_neg (show ¬max_length < 2 by omega)]

-- The calls of a phase, one for each owner.
def owner_call (graph : DirectedGraph) (changes : List EdgeChange) (max_length : Nat)
    (round : EdgeChange × Nat) : EdgeCall :=
  ⟨graph, changes, round.1, round.2, max_length, List.replicate (max_length + 1) 0⟩

section Round

variable {round : EdgeChange × Nat}

theorem owner_call_valid (hg : graph.Sorted) (hc : PhaseChanges graph changes)
    (hloops : ∀ change ∈ changes, change.source ≠ change.target)
    (hvertices : ∀ change ∈ changes, change.source < graph.vertex_count)
    (hr : round ∈ changes.zipIdx) : (owner_call graph changes max_length round).Valid := by
  have hm := List.fst_mem_of_mem_zipIdx hr
  refine ⟨hg, hc.narrow hg, hvertices _ hm, hg.bounded _ _ (hc.edges _ hm), hloops _ hm, ?_, ?_⟩
  · rw [owner_call, List.length_replicate]
    exact Nat.lt_succ_self _
  · intro count hcount
    rw [List.eq_of_mem_replicate hcount]
    exact Nat.two_pow_pos 64

-- The cycles of an owner are the paths that its call is to count.
theorem owned_number_paths (hg : graph.Sorted) (hc : PhaseChanges graph changes)
    (hloops : ∀ change ∈ changes, change.source ≠ change.target) (hr : round ∈ changes.zipIdx)
    (k : Nat) : owned_number graph changes round k =
      ((owner_call graph changes max_length round).paths k).ncard := by
  have hm := List.fst_mem_of_mem_zipIdx hr
  rw [owned_number_closings hg hc.nodup hr (hc.edges _ hm) (hloops _ hm) (Nat.le_refl k),
    EdgeCall.paths, EdgeCall.crosses_eq]
  exact (ncard_simple_paths graph.vertex_count (fun a => (hg.row_nodup a).filter _)
    (hloops _ hm).symm
    (fun a b hb => List.mem_range.mpr (hg.bounded a b (mem_succ_avoiding.mp hb).1)) (by simp)
    (by simp)).symm

end Round

-- The owners find the paths that their calls see.
theorem count_owners_seen (hg : graph.Sorted) (hc : PhaseChanges graph changes)
    (hloops : ∀ change ∈ changes, change.source ≠ change.target)
    (hvertices : ∀ change ∈ changes, change.source < graph.vertex_count)
    {buffer : VisitedBuffer} (hclear : buffer.visited = Flags.none) :
    ∃ counts buffer', count_owners graph changes max_length (List.replicate (max_length + 1) 0)
        buffer = .ok (counts, buffer') ∧ buffer'.visited = Flags.none ∧
      ∀ k, 2 ≤ k → k ≤ max_length → counts.getD k 0 = (changes.zipIdx.map fun round =>
        ((owner_call graph changes max_length round).seen_paths k).ncard).sum % 2 ^ 64 := by
  obtain ⟨buffer', hrun, hclear'⟩ := count_rounds_eq max_length hg.read_bounded
    (fun change hm => ⟨hvertices change hm, hg.bounded _ _ (hc.edges change hm)⟩) changes.zipIdx
    (fun round hr => List.fst_mem_of_mem_zipIdx hr) (List.replicate (max_length + 1) 0) hclear
  refine ⟨_, buffer', hrun, hclear', fun k hk hcap => ?_⟩
  have hzero : (List.replicate (max_length + 1) 0).getD k 0 = 0 := by
    rw [List.getD_replicate]
    omega
  rw [count_all_getD_mod _ _ (by rw [List.length_replicate]; omega) (by rw [hzero]; omega), hzero,
    Nat.zero_add, List.countP_flatMap]
  congr 2
  refine List.map_congr_left fun round hr => ?_
  exact ((owner_call_valid hg hc hloops hvertices hr).ncard_closings k).trans (if_pos ⟨hk, hcap⟩)

theorem ncard_changed_cycles_paths (hg : graph.Sorted) (hc : PhaseChanges graph changes)
    (hloops : ∀ change ∈ changes, change.source ≠ change.target) (max_length : Nat) {k : Nat}
    (hk : 2 ≤ k) : (changed_cycles graph changes k).ncard = (changes.zipIdx.map fun round =>
      ((owner_call graph changes max_length round).paths k).ncard).sum := by
  rw [ncard_changed_cycles hg changes hk, phase_number]
  congr 1
  exact List.map_congr_left fun round hr => owned_number_paths hg hc hloops hr k

def OwnersSeen (graph : DirectedGraph) (changes : List EdgeChange) (max_length : Nat) : Prop :=
  ∀ round ∈ changes.zipIdx, (owner_call graph changes max_length round).Seen

-- Together the owners count the cycles that use some of the changes.
def OwnersExact (graph : DirectedGraph) (changes : List EdgeChange) (max_length : Nat)
    (buffer : VisitedBuffer) : Prop :=
  ∃ counts buffer', count_owners graph changes max_length (List.replicate (max_length + 1) 0)
      buffer = .ok (counts, buffer') ∧ buffer'.visited = Flags.none ∧
    ∀ k, 2 ≤ k → k ≤ max_length →
      counts.getD k 0 = (changed_cycles graph changes k).ncard % 2 ^ 64

theorem owners_exact_of_seen (hg : graph.Sorted) (hc : PhaseChanges graph changes)
    (hloops : ∀ change ∈ changes, change.source ≠ change.target)
    (hvertices : ∀ change ∈ changes, change.source < graph.vertex_count)
    {buffer : VisitedBuffer} (hclear : buffer.visited = Flags.none)
    (hseen : OwnersSeen graph changes max_length) : OwnersExact graph changes max_length buffer := by
  obtain ⟨counts, buffer', hrun, hclear', hcounts⟩ :=
    count_owners_seen hg hc hloops hvertices hclear
  refine ⟨counts, buffer', hrun, hclear', fun k hk hcap => ?_⟩
  rw [hcounts k hk hcap, ncard_changed_cycles_paths hg hc hloops max_length hk]
  congr 2
  exact List.map_congr_left fun round hr => by rw [(hseen round hr).eq hk hcap]

-- An owner that loses a path makes the sum too small.
theorem owners_seen_of_exact (hg : graph.Sorted) (hc : PhaseChanges graph changes)
    (hloops : ∀ change ∈ changes, change.source ≠ change.target)
    (hvertices : ∀ change ∈ changes, change.source < graph.vertex_count)
    {buffer : VisitedBuffer} (hclear : buffer.visited = Flags.none)
    (hfit : ∀ k ≤ max_length, (changed_cycles graph changes k).ncard < 2 ^ 64)
    (hexact : OwnersExact graph changes max_length buffer) :
    OwnersSeen graph changes max_length := by
  obtain ⟨counts, buffer', hrun, -, hcounts⟩ :=
    @count_owners_seen graph changes max_length hg hc hloops hvertices buffer hclear
  obtain ⟨counts', buffer'', hrun', -, hexact⟩ := hexact
  obtain ⟨rfl, -⟩ := Prod.mk.inj (Except.ok.inj (hrun'.symm.trans hrun))
  intro round hr
  have hvalid : ∀ r ∈ changes.zipIdx, (owner_call graph changes max_length r).Valid :=
    fun r hr => owner_call_valid hg hc hloops hvertices hr
  refine (hvalid round hr).seen_of_ncard fun k hk hcap => ?_
  by_contra hless
  have hlt := List.sum_lt_sum _ _ (fun r hr => (hvalid r hr).ncard_seen_le k)
    ⟨round, hr, Nat.lt_of_not_le hless⟩
  have hsame := (hcounts k hk hcap).symm.trans (hexact k hk hcap)
  have hsmall := hfit k hcap
  rw [ncard_changed_cycles_paths hg hc hloops max_length hk] at hsame hsmall
  omega

theorem exists_unique_change {k : Nat} {c : Cycle Nat} (h : c ∈ changed_cycles graph changes k) :
    ∃! owner_id, ∃ change, changes[owner_id]? = some change ∧
      c ∈ owned_cycles (fun a b => b ∈ graph.row a) k ((changes.take owner_id).map arc_of)
        (arc_of change) := by
  obtain ⟨hc, change, hm, hf⟩ := h
  obtain ⟨id, ⟨arc, hget, howned⟩, hunique⟩ :=
    exists_unique_owner hc ⟨arc_of change, List.mem_map_of_mem hm, hf⟩
  rw [List.getElem?_map, Option.map_eq_some_iff] at hget
  obtain ⟨owner, hget, rfl⟩ := hget
  rw [← List.map_take] at howned
  refine ⟨id, ⟨owner, hget, howned⟩, fun other hother => hunique other ?_⟩
  obtain ⟨found, hfound, howns⟩ := hother
  exact ⟨arc_of found, by rw [List.getElem?_map, hfound]; rfl, by rwa [← List.map_take]⟩

end Owners

-- Whatever a thread counted before, over graphs of whatever size, a call adds the paths
-- between its ends that cross no change before its own, and leaves the buffer clear,
-- unless one of the paths goes on from the vertex of the last id. So the owners of some
-- edges together count each cycle that uses one of them once: the first of the edges on
-- it owns it.
theorem count_cycles_through_edge_exact {calls : List EdgeCall} (hcalls : ∀ call ∈ calls, call.Valid)
    {buffer : VisitedBuffer} (hclear : buffer.visited = Flags.none) {graph : DirectedGraph}
    (hg : graph.Sorted) {edges : List EdgeChange}
    (hedges : ∀ edge ∈ edges, edge.source < graph.vertex_count ∧
      edge.target ∈ graph.row edge.source ∧ edge.source ≠ edge.target) (max_length : Nat) :
    ((∀ call ∈ calls, call.graph.vertex_count < 2 ^ 32 ∨ call.Seen) → CallsExact calls buffer) ∧
    ((∀ call ∈ calls, call.Fits) → CallsExact calls buffer → ∀ call ∈ calls, call.Seen) ∧
    (graph.vertex_count < 2 ^ 32 ∨ OwnersSeen graph (sort_and_dedup edges) max_length →
      OwnersExact graph (sort_and_dedup edges) max_length buffer) ∧
    ((∀ k ≤ max_length, (changed_cycles graph edges k).ncard < 2 ^ 64) →
      OwnersExact graph (sort_and_dedup edges) max_length buffer →
        OwnersSeen graph (sort_and_dedup edges) max_length) ∧
    (∀ k, changed_cycles graph (sort_and_dedup edges) k = changed_cycles graph edges k) ∧
    ∀ k, ∀ c ∈ changed_cycles graph edges k, ∃! owner_id, ∃ change,
      (sort_and_dedup edges)[owner_id]? = some change ∧
        c ∈ owned_cycles (fun a b => b ∈ graph.row a) k
          (((sort_and_dedup edges).take owner_id).map arc_of) (arc_of change) := by
  have hsame : ∀ k, changed_cycles graph (sort_and_dedup edges) k = changed_cycles graph edges k :=
    fun k => by simp only [changed_cycles, mem_sort_and_dedup]
  have hchanges : ∀ change ∈ sort_and_dedup edges, change.source < graph.vertex_count ∧
      change.target ∈ graph.row change.source ∧ change.source ≠ change.target :=
    fun change hm => hedges change (mem_sort_and_dedup.mp hm)
  have hphase : PhaseChanges graph (sort_and_dedup edges) :=
    ⟨sort_and_dedup_nodup edges, fun change hm => (hchanges change hm).2.1⟩
  have hloops := fun change hm => (hchanges change hm).2.2
  have hvertices := fun change hm => (hchanges change hm).1
  refine ⟨fun hseen => ?_, seen_of_calls_exact hcalls hclear, fun hseen => ?_, fun hfit => ?_, hsame,
    fun k c hc => ?_⟩
  · exact calls_exact_of_seen hcalls hclear fun call hm =>
      (hseen call hm).elim (hcalls call hm).seen id
  · exact owners_exact_of_seen hg hphase hloops hvertices hclear <| hseen.elim
      (fun hids round hr => (owner_call_valid hg hphase hloops hvertices hr).seen hids) id
  · simp only [← hsame] at hfit
    exact owners_seen_of_exact hg hphase hloops hvertices hclear hfit
  · exact exists_unique_change (hsame k ▸ hc)

section Sample

-- A loop at 0, the arcs 0 → 1 → 2 → 0 and 1 → 0.
def loop_graph : DirectedGraph := ⟨3, [0, 2, 4, 5], [0, 1, 0, 2, 0]⟩

theorem loop_graph_sorted : loop_graph.Sorted :=
  DirectedGraph.sorted_of_rows rfl rfl (by decide) (by decide)

def pair_graph : DirectedGraph := ⟨2, [0, 1, 2], [1, 0]⟩

theorem pair_graph_sorted : pair_graph.Sorted :=
  DirectedGraph.sorted_of_rows rfl rfl (by decide) (by decide)

-- The second call must not cross the arc from 1 to 2, the third meets a larger graph
-- than the buffer has seen.
def sample_calls : List EdgeCall :=
  [⟨pair_graph, [⟨0, 1⟩], ⟨0, 1⟩, 0, 2, [7, 7, 7]⟩,
    ⟨loop_graph, [⟨1, 2⟩, ⟨0, 1⟩], ⟨0, 1⟩, 1, 3, [0, 0, 0, 0]⟩,
    ⟨pair_graph, [⟨0, 1⟩, ⟨1, 0⟩], ⟨1, 0⟩, 1, 2, [0, 0, 0]⟩]

theorem sample_calls_valid : ∀ call ∈ sample_calls, call.Valid := by
  intro call hm
  simp only [sample_calls, List.mem_cons, List.not_mem_nil, or_false] at hm
  rcases hm with rfl | rfl | rfl
  · exact ⟨pair_graph_sorted, by decide, by decide, by decide, by decide, by decide, by decide⟩
  · exact ⟨loop_graph_sorted, by decide, by decide, by decide, by decide, by decide, by decide⟩
  · exact ⟨pair_graph_sorted, by decide, by decide, by decide, by decide, by decide, by decide⟩

theorem sample_calls_narrow : ∀ call ∈ sample_calls, call.graph.vertex_count < 2 ^ 32 := by decide

theorem count_cycles_through_edge_exact_sample :
    CallsExact sample_calls ⟨0, Flags.none⟩ ∧
    OwnersExact loop_graph (sort_and_dedup [⟨1, 2⟩, ⟨0, 1⟩, ⟨1, 2⟩]) 3 ⟨0, Flags.none⟩ ∧
    ∀ k, ∀ c ∈ changed_cycles loop_graph [⟨1, 2⟩, ⟨0, 1⟩, ⟨1, 2⟩] k, ∃! owner_id, ∃ change,
      (sort_and_dedup [⟨1, 2⟩, ⟨0, 1⟩, ⟨1, 2⟩])[owner_id]? = some change ∧
        c ∈ owned_cycles (fun a b => b ∈ loop_graph.row a) k
          (((sort_and_dedup [⟨1, 2⟩, ⟨0, 1⟩, ⟨1, 2⟩]).take owner_id).map arc_of) (arc_of change) :=
  have h := count_cycles_through_edge_exact sample_calls_valid rfl loop_graph_sorted (by decide) 3
  ⟨h.1 (fun call hm => Or.inl (sample_calls_narrow call hm)), h.2.2.1 (Or.inl (by decide)),
    h.2.2.2.2.2⟩

-- The edges from 0 to the last vertex and back.
def turn_row (last v : Nat) : List Nat := if v = 0 then [last] else if v = last then [0] else []

def turn_graph (last : Nat) : DirectedGraph :=
  let (offsets, neighbors) := concat_rows ((List.range (last + 1)).map (turn_row last))
  ⟨last + 1, offsets, neighbors⟩

theorem turn_graph_row {last v : Nat} (hv : v ≤ last) : (turn_graph last).row v = turn_row last v := by
  rw [DirectedGraph.row, turn_graph, extract_concat_rows,
    List.getD_eq_getElem _ _ (by simpa using Nat.lt_succ_of_le hv), List.getElem_map,
    List.getElem_range]

theorem turn_graph_start (last : Nat) : (turn_graph last).offsets.getD 0 0 = 0 := concat_rows_start _

theorem turn_graph_sorted {last : Nat} (hids : last < 2 ^ 32) : (turn_graph last).Sorted := by
  refine DirectedGraph.sorted_of_rows ?_ (turn_graph_start last) (fun v hv => ?_) hids
  · simp [turn_graph, concat_rows_eq]
  · rw [turn_graph_row (Nat.le_of_lt_succ hv), turn_row]
    split_ifs
    · simp [turn_graph]
    · simp [turn_graph]
    · simp

-- Where the row of the target is read as empty nothing is counted.
theorem count_cycles_of_row {graph : DirectedGraph} {target : Nat} (hrow : graph.read_row target = [])
    (source owner_id : Nat) (phase_changes : ChangedEdgeIndex) (max_length : Nat) (counts : List Nat)
    (buffer : VisitedBuffer) : ∃ buffer', count_cycles_through_edge graph source target owner_id
      phase_changes max_length counts buffer = .ok (counts, buffer') := by
  have hsearch : ∀ fuel state, search graph source target owner_id phase_changes max_length (fuel + 1)
      target 1 state = .ok state := fun fuel state => by
    rw [search, hrow]
    rfl
  unfold count_cycles_through_edge
  split_ifs with hnone
  · exact ⟨buffer, rfl⟩
  · obtain ⟨fuel, hfuel⟩ : ∃ fuel, graph.vertex_count = fuel + 1 :=
      ⟨graph.vertex_count - 1, by omega⟩
    rw [hfuel]
    exact ⟨_, ok_bind (hsearch fuel _)⟩

def turn_call : EdgeCall :=
  ⟨turn_graph (2 ^ 32 - 1), [⟨0, 2 ^ 32 - 1⟩], ⟨0, 2 ^ 32 - 1⟩, 0, 2, [0, 0, 0]⟩

-- The call does not see the edge from the last vertex back to 0.
theorem count_cycles_through_edge_lost :
    turn_call.Valid ∧ (∃ buffer, turn_call.run ⟨0, Flags.none⟩ = .ok ([0, 0, 0], buffer)) ∧
      ¬turn_call.Adds [0, 0, 0] := by
  have hsorted : (turn_graph (2 ^ 32 - 1)).Sorted := turn_graph_sorted (by decide)
  refine ⟨⟨hsorted, by decide, Nat.two_pow_pos 32, Nat.lt_succ_self _, by decide, by decide, by decide⟩,
    count_cycles_of_row (narrow_row_last (turn_graph_start _) (by decide)) _ _ _ _ _ _, fun h => ?_⟩
  have hcross : turn_call.Crosses (2 ^ 32 - 1) 0 := by
    refine ⟨?_, List.not_mem_nil⟩
    change 0 ∈ (turn_graph (2 ^ 32 - 1)).row (2 ^ 32 - 1)
    rw [turn_graph_row (Nat.le_refl _), turn_row, if_neg (by decide), if_pos rfl]
    exact List.mem_singleton_self 0
  have hpaths : simple_paths turn_call.Crosses (2 ^ 32 - 1) 0 2 = {[2 ^ 32 - 1, 0]} := by
    refine Set.eq_singleton_iff_unique_mem.mpr ⟨?_, fun path hpath => ?_⟩
    · exact ⟨by decide, rfl, rfl, rfl, List.isChain_pair.mpr hcross⟩
    · obtain ⟨-, hlength, hhead, hlast, -⟩ := hpath
      obtain ⟨a, b, rfl⟩ := List.length_eq_two.mp hlength
      obtain rfl : a = 2 ^ 32 - 1 := Option.some.inj hhead
      obtain rfl : b = 0 := Option.some.inj hlast
      exact Set.mem_singleton _
  have hcount := h.2 2 (by decide)
  change 0 = (0 + if 2 ≤ 2 ∧ 2 ≤ 2 then (simple_paths turn_call.Crosses (2 ^ 32 - 1) 0 2).ncard
    else 0) % 2 ^ 64 at hcount
  rw [hpaths, Set.ncard_singleton] at hcount
  exact absurd hcount (by decide)

example : (run_calls sample_calls ⟨0, Flags.none⟩).map (·.1) =
    .ok [[7, 7, 8], [0, 0, 1, 0], [0, 0, 0]] := rfl

end Sample

end CycleEnum.Dynamic
