import CycleEnum.Dynamic.UpdateKernel
import CycleEnum.Parallel.FrameSearch
import CycleEnum.Parallel.Items

namespace CycleEnum.Dynamic

open CycleEnum.Cuda CycleEnum.Enumeration CycleEnum.Parallel

-- What the host relies on when it counts the owned cycles of a phase on the device. No
-- device has the memory for `2 ^ 45` visited flags, and without it nothing is launched.
structure DevicePhase (graph : DirectedGraph) (changes : List EdgeChange) (max_length : Nat) :
    Prop where
  valid : graph.Valid
  row_ids : ∀ next ∈ graph.neighbors, next < 2 ^ 32
  sorted : changes.Pairwise fun a b => EdgeChange.lt a b = true
  vertices : ∀ change ∈ changes,
    change.source < graph.vertex_count ∧ change.target < graph.vertex_count
  ids : ∀ change ∈ changes, change.source < 2 ^ 32 ∧ change.target < 2 ^ 32
  min_length : 2 ≤ max_length
  max_length : max_length ≤ INT_MAX
  allocated : changes.length * graph.vertex_count < 2 ^ 45

-- The slots of an item: `max_length` of the stacks and a flag for each vertex.
def OwnRegion (graph : DirectedGraph) (max_length work : Nat) : UpdateEvent → Prop
  | .frame slot => InSlots max_length work slot
  | .flag slot => InSlots graph.vertex_count work slot
  | .counted _ => True
  | .undefined => False

namespace DevicePhase

variable {graph : DirectedGraph} {changes : List EdgeChange} {max_length : Nat}
  (hp : DevicePhase graph changes max_length)

include hp

-- Different changes between fewer vertices than that are few.
theorem length_lt : changes.length < 2 ^ 30 := by
  have hnodup : (changes.map fun change => change.source * graph.vertex_count + change.target).Nodup := by
    refine List.pairwise_map.mpr (hp.sorted.imp_of_mem fun {a b} ha hb hlt he => ?_)
    have h₁ := (hp.vertices a ha).2
    have h₂ := (hp.vertices b hb).2
    have hsource : a.source = b.source := by
      have h := congrArg (· / graph.vertex_count) he
      simpa [Nat.mul_comm _ graph.vertex_count, Nat.mul_add_div (Nat.zero_lt_of_lt h₁),
        Nat.div_eq_of_lt h₁, Nat.div_eq_of_lt h₂] using h
    rw [hsource] at he
    rw [EdgeChange.lt_iff] at hlt
    omega
  have hinside : ∀ key ∈ changes.map fun change =>
      change.source * graph.vertex_count + change.target,
      key ∈ List.range (graph.vertex_count * graph.vertex_count) := by
    intro key hm
    obtain ⟨change, hc, rfl⟩ := List.mem_map.mp hm
    obtain ⟨hs, ht⟩ := hp.vertices change hc
    have := Nat.mul_le_mul_right graph.vertex_count (Nat.succ_le_of_lt hs)
    rw [Nat.succ_mul] at this
    exact List.mem_range.mpr (by omega)
  have hle := (hnodup.subperm hinside).length_le
  rw [List.length_map, List.length_range] at hle
  have hfew := hp.allocated
  by_contra hmany
  have hwide : 2 ^ 15 ≤ graph.vertex_count := by
    by_contra hnarrow
    have : graph.vertex_count * graph.vertex_count < 2 ^ 15 * 2 ^ 15 :=
      Nat.mul_lt_mul'' (by omega) (by omega)
    omega
  have := Nat.mul_le_mul (Nat.le_of_not_lt hmany) hwide
  omega

theorem stacks_fit : changes.length * max_length < 2 ^ 64 := by
  have h₁ := hp.length_lt
  have h₂ := hp.max_length
  unfold INT_MAX at h₂
  have := Nat.mul_le_mul (Nat.le_of_lt h₁) h₂
  omega

theorem few : max_length + 1 ≤ MAX_PLACES :=
  (Nat.succ_le_succ hp.max_length).trans (by decide)

theorem size_eq : to_size (max_length : Int) = max_length :=
  to_size_eq (lt_of_le_of_lt hp.max_length (by decide))

theorem int_eq : to_int max_length = max_length :=
  to_int_eq (lt_of_le_of_lt hp.max_length (by decide))

-- The flags of the items are disjoint where the vertex count is not cut, or where there
-- is one item.
theorem flag_slot (hstride : graph.vertex_count < 2 ^ 32 ∨ changes.length ≤ 1) {work v : Nat}
    (hw : work < changes.length) (hv : v < graph.vertex_count) :
    wrap (wrap (work * to_uint32 graph.vertex_count) + v) = work * graph.vertex_count + v := by
  have hfit : changes.length * graph.vertex_count < 2 ^ 64 := by
    have := hp.allocated
    omega
  rcases hstride with hnarrow | hone
  · rw [to_uint32, Nat.mod_eq_of_lt hnarrow]
    exact wrap_slot hfit hw hv
  · obtain rfl : work = 0 := by omega
    have hslot := wrap_slot hfit hw hv
    simp only [Nat.zero_mul] at hslot ⊢
    exact hslot

theorem rows_bounded : ∀ v, ∀ next ∈ graph.row v, next < graph.vertex_count :=
  DirectedGraph.row_bounded hp.valid.bounded

theorem bounded : ∀ v, ∀ next ∈ graph.read_row v, next < graph.vertex_count :=
  DirectedGraph.read_row_bounded hp.valid.bounded

-- The arc that a cursor points to.
theorem row_cons {v cursor : Nat}
    (hv : v < graph.vertex_count) (hc : cursor < graph.offsets.getD (next_id v) 0) :
    graph.neighbors.getD cursor 0 < graph.vertex_count ∧
      graph.neighbors.getD cursor 0 < 2 ^ 32 ∧
      graph.neighbors.extract cursor (graph.offsets.getD (next_id v) 0) =
        graph.neighbors.getD cursor 0 ::
          graph.neighbors.extract (cursor + 1) (graph.offsets.getD (next_id v) 0) := by
  obtain ⟨next, hnext, hrow⟩ := extract_cons_of_lt graph.neighbors hc (hp.valid.next_id_le hv)
  have hget : graph.neighbors.getD cursor 0 = next := by
    rw [List.getD_eq_getElem?_getD, hnext]
    rfl
  have hmem := List.mem_of_getElem? hnext
  rw [hget]
  exact ⟨hp.valid.bounded next hmem, hp.row_ids next hmem, hrow⟩

end DevicePhase

-- The arcs that a work item may cross.
def owned_rows (graph : DirectedGraph) (changes : List EdgeChange) (work : Nat) : ArcRows Nat Nat where
  row := graph.read_row
  admits current next := !(ChangedEdgeIndex.of_changes changes).forbidden_before current next work
  target := id

theorem owned_rows_successors (graph : DirectedGraph) (changes : List EdgeChange) (work : Nat) :
    (owned_rows graph changes work).successors =
      owned_successors graph (ChangedEdgeIndex.of_changes changes) work := by
  funext v
  exact List.map_id _

theorem DevicePhase.admits_iff {graph : DirectedGraph} {changes : List EdgeChange} {max_length : Nat}
    (hp : DevicePhase graph changes max_length) (work current : Nat) {next : Nat}
    (hn : next < 2 ^ 32) : (owned_rows graph changes work).admits current next = true ↔
      ⟨current, next⟩ ∉ changes.take work := by
  rw [← forbidden_before_iff (fun change hm => (hp.ids change hm).2) current next work hn]
  change (!_) = true ↔ _
  rw [Bool.not_eq_true', Bool.not_eq_true]

namespace UpdatePools

-- The open frames: the vertices of the path with what is left of their rows.
def open_rows (pools : UpdatePools) (graph : DirectedGraph) (base depth : Nat) :
    List (Nat × List Nat) :=
  stack_at (fun slot => (pools.path_pool slot, graph.neighbors.extract (pools.cursor_pool slot)
    (graph.offsets.getD (next_id (pools.path_pool slot)) 0))) base depth

-- The flags of an item are up at the source of its change and on the path.
def Flagged (pools : UpdatePools) (graph : DirectedGraph) (work : Nat) (path : List Nat) : Prop :=
  ∀ v < graph.vertex_count, pools.visited_pool (work * graph.vertex_count + v) = true ↔ v ∈ path

-- Two states of the pools agree on an item's part of them.
structure Same (graph : DirectedGraph) (max_length work : Nat) (pools pools' : UpdatePools) : Prop where
  frames : ∀ slot, InSlots max_length work slot →
    pools'.path_pool slot = pools.path_pool slot ∧ pools'.cursor_pool slot = pools.cursor_pool slot
  flags : ∀ slot, InSlots graph.vertex_count work slot →
    pools'.visited_pool slot = pools.visited_pool slot

section Frames

variable {graph : DirectedGraph} {max_length work : Nat} {pools pools' : UpdatePools}

theorem open_rows_path (pools : UpdatePools) (graph : DirectedGraph) (base depth : Nat) :
    (pools.open_rows graph base depth).map (·.1) = stack_at pools.path_pool base depth :=
  stack_at_map _ _ _ _

theorem Same.open_rows {depth : Nat} (h : pools.Same graph max_length work pools')
    (hd : depth ≤ max_length) : pools'.open_rows graph (work * max_length) depth =
      pools.open_rows graph (work * max_length) depth := by
  refine stack_at_congr fun k hk => ?_
  obtain ⟨hpath, hcursor⟩ := h.frames _ (in_slots_add (show k < max_length by omega))
  rw [hpath, hcursor]

theorem Same.flagged {path : List Nat} (h : pools.Same graph max_length work pools') :
    pools'.Flagged graph work path ↔ pools.Flagged graph work path := by
  have hflag : ∀ v < graph.vertex_count, pools'.visited_pool (work * graph.vertex_count + v) =
      pools.visited_pool (work * graph.vertex_count + v) := fun v hv => h.flags _ (in_slots_add hv)
  refine forall_congr' fun v => forall_congr' fun hv => ?_
  rw [hflag v hv]

theorem open_rows_advance (pools : UpdatePools) (graph : DirectedGraph) (base depth cursor : Nat) :
    (pools.advance (base + depth) cursor).open_rows graph base (depth + 1) =
      (pools.path_pool (base + depth), graph.neighbors.extract cursor
        (graph.offsets.getD (next_id (pools.path_pool (base + depth))) 0)) ::
        pools.open_rows graph base depth := by
  rw [open_rows, stack_at]
  refine congrArg₂ _ ?_ (stack_at_congr fun k hk => ?_)
  · simp only [advance, Function.update_self]
  · simp only [advance, Function.update_of_ne (show base + k ≠ base + depth by omega)]

theorem open_rows_enter (pools : UpdatePools) (graph : DirectedGraph) (base depth vertex : Nat) :
    (pools.enter (base + depth) vertex (graph.offsets.getD vertex 0)).open_rows graph base
        (depth + 1) = (vertex, graph.read_row vertex) :: pools.open_rows graph base depth := by
  rw [open_rows, stack_at]
  refine congrArg₂ _ ?_ (stack_at_congr fun k hk => ?_)
  · simp only [enter, Function.update_self]
    rfl
  · simp only [enter, Function.update_of_ne (show base + k ≠ base + depth by omega)]

theorem Flagged.mark_true {path : List Nat} {v : Nat} (h : pools.Flagged graph work path) :
    (pools.mark (work * graph.vertex_count + v) true).Flagged graph work (v :: path) := by
  intro u hu
  rw [mark, List.mem_cons, ← h u hu]
  by_cases hv : u = v
  · subst hv
    simp
  · simp [hv]

theorem Flagged.mark_false {path : List Nat} {v : Nat} (h : pools.Flagged graph work (v :: path))
    (hnew : v ∉ path) :
    (pools.mark (work * graph.vertex_count + v) false).Flagged graph work path := by
  intro u hu
  have hbefore := h u hu
  rw [List.mem_cons] at hbefore
  rw [mark]
  by_cases hv : u = v
  · subst hv
    simp [hnew]
  · simpa [hv] using hbefore

theorem Same.trans {pools'' : UpdatePools} (h : pools.Same graph max_length work pools')
    (h' : pools'.Same graph max_length work pools'') : pools.Same graph max_length work pools'' where
  frames slot hs :=
    ⟨(h'.frames slot hs).1.trans (h.frames slot hs).1, (h'.frames slot hs).2.trans (h.frames slot hs).2⟩
  flags slot hs := (h'.flags slot hs).trans (h.flags slot hs)

variable {other k v : Nat}

theorem same_mark (pools : UpdatePools) (max_length : Nat) (ho : other ≠ work)
    (hv : v < graph.vertex_count) (value : Bool) :
    pools.Same graph max_length other (pools.mark (work * graph.vertex_count + v) value) where
  frames _ _ := ⟨rfl, rfl⟩
  flags slot hs := by
    have hne : slot ≠ work * graph.vertex_count + v :=
      fun he => ho (in_slots_unique (in_slots_add hv) (he ▸ hs))
    exact Function.update_of_ne hne _ _

theorem same_advance (pools : UpdatePools) (graph : DirectedGraph) (ho : other ≠ work)
    (hk : k < max_length) (cursor : Nat) :
    pools.Same graph max_length other (pools.advance (work * max_length + k) cursor) where
  frames slot hs := by
    have hne : slot ≠ work * max_length + k :=
      fun he => ho (in_slots_unique (in_slots_add hk) (he ▸ hs))
    exact ⟨rfl, Function.update_of_ne hne _ _⟩
  flags _ _ := rfl

theorem same_enter (pools : UpdatePools) (graph : DirectedGraph) (ho : other ≠ work)
    (hk : k < max_length) (vertex cursor : Nat) :
    pools.Same graph max_length other (pools.enter (work * max_length + k) vertex cursor) where
  frames slot hs := by
    have hne : slot ≠ work * max_length + k :=
      fun he => ho (in_slots_unique (in_slots_add hk) (he ▸ hs))
    exact ⟨Function.update_of_ne hne _ _, Function.update_of_ne hne _ _⟩
  flags _ _ := rfl

end Frames

end UpdatePools

section Round

variable {graph : DirectedGraph} {changes : List EdgeChange} {max_length work depth : Nat}
  {pools : UpdatePools} {change : EdgeChange}

-- What a round does to the pools when it moves on the open frames as given.
structure UpdateRounds (graph : DirectedGraph) (max_length work : Nat) (change : EdgeChange)
    (pools : UpdatePools) (below : List (Nat × List Nat)) (move : Move (Nat × List Nat) Nat)
    (depth : Nat) (pools' : UpdatePools) (events : List UpdateEvent) : Prop where
  frames : pools'.open_rows graph (work * max_length) depth = move.apply below
  flagged : 0 < depth →
    pools'.Flagged graph work (path_of change.source (move.apply below))
  first : pools'.path_pool (work * max_length) = pools.path_pool (work * max_length)
  apart : ∀ other, other ≠ work → pools.Same graph max_length other pools'
  counts : events.filterMap UpdateEvent.bin = move.events
  own : ∀ event ∈ events, OwnRegion graph max_length work event

-- A round that leaves the top vertex.
theorem update_pop (hd : depth < max_length)
    (hv : pools.path_pool (work * max_length + depth) < graph.vertex_count)
    (hflagged : pools.Flagged graph work (path_of change.source
      (pools.open_rows graph (work * max_length) (depth + 1))))
    (hnew : 0 < depth → pools.path_pool (work * max_length + depth) ∉
      path_of change.source (pools.open_rows graph (work * max_length) depth)) :
    UpdateRounds graph max_length work change pools
      (pools.open_rows graph (work * max_length) depth) .pop depth
      (pools.mark (work * graph.vertex_count + pools.path_pool (work * max_length + depth)) false)
      [.frame (work * max_length + depth),
        .flag (work * graph.vertex_count + pools.path_pool (work * max_length + depth))] where
  frames := rfl
  flagged hpos := hflagged.mark_false (hnew hpos)
  first := rfl
  apart other ho := pools.same_mark max_length ho hv false
  counts := rfl
  own event he := by
    rcases List.mem_pair.mp he with rfl | rfl
    · exact in_slots_add hd
    · exact in_slots_add hv

-- A round that goes over an arc of the top vertex, and may count.
theorem update_stay (hd : depth < max_length) {cursor : Nat} {lengths : List Nat}
    {pools' : UpdatePools} {events : List UpdateEvent}
    (hflagged : pools.Flagged graph work (path_of change.source
      (pools.open_rows graph (work * max_length) (depth + 1))))
    (hpath : pools'.path_pool = pools.path_pool)
    (hcursor : pools'.cursor_pool =
      Function.update pools.cursor_pool (work * max_length + depth) cursor)
    (hvisited : pools'.visited_pool = pools.visited_pool)
    (hcounts : events.filterMap UpdateEvent.bin = lengths)
    (hown : ∀ event ∈ events, OwnRegion graph max_length work event) :
    UpdateRounds graph max_length work change pools
      (pools.open_rows graph (work * max_length) depth)
      (.stay (pools.path_pool (work * max_length + depth), graph.neighbors.extract cursor
        (graph.offsets.getD (next_id (pools.path_pool (work * max_length + depth))) 0)) lengths)
      (depth + 1) pools' events := by
  have hframes : pools'.open_rows graph (work * max_length) (depth + 1) =
      (pools.advance (work * max_length + depth) cursor).open_rows graph (work * max_length)
        (depth + 1) := by
    unfold UpdatePools.open_rows UpdatePools.advance
    rw [hpath, hcursor]
  have hadvance := pools.open_rows_advance graph (work * max_length) depth cursor
  refine ⟨hframes.trans hadvance, fun _ => ?_, congrFun hpath _, fun other ho => ?_, hcounts, hown⟩
  · intro v hv
    rw [hvisited]
    exact hflagged v hv
  · have hsame := pools.same_advance graph ho hd cursor
    refine ⟨fun slot hs => ?_, fun slot hs => congrFun hvisited slot⟩
    rw [hpath, hcursor]
    exact hsame.frames slot hs

-- A round that goes on from there to a new vertex.
theorem update_push (hd : depth + 1 < max_length) (hpos : 0 < depth + 1) {cursor next : Nat}
    (hnext : next < graph.vertex_count)
    (hflagged : pools.Flagged graph work (path_of change.source
      (pools.open_rows graph (work * max_length) (depth + 1)))) :
    UpdateRounds graph max_length work change pools
      (pools.open_rows graph (work * max_length) depth)
      (.push (pools.path_pool (work * max_length + depth), graph.neighbors.extract cursor
        (graph.offsets.getD (next_id (pools.path_pool (work * max_length + depth))) 0))
        (next, graph.read_row next))
      (depth + 1 + 1)
      (((pools.advance (work * max_length + depth) cursor).mark
        (work * graph.vertex_count + next) true).enter (work * max_length + (depth + 1)) next
          (graph.offsets.getD next 0))
      [.frame (work * max_length + depth), .flag (work * graph.vertex_count + next),
        .frame (work * max_length + (depth + 1))] := by
  have hstay : UpdateRounds graph max_length work change pools _ (.stay _ []) (depth + 1)
      (pools.advance (work * max_length + depth) cursor) [] :=
    update_stay (Nat.lt_of_succ_lt hd) hflagged rfl rfl rfl rfl (by simp)
  refine ⟨?_, fun _ => (hstay.flagged hpos).mark_true, ?_, fun other ho => ?_, rfl, fun event he => ?_⟩
  · refine (UpdatePools.open_rows_enter _ graph _ (depth + 1) next).trans (congrArg _ ?_)
    exact hstay.frames
  · exact Function.update_of_ne (show work * max_length ≠ work * max_length + (depth + 1) by omega) _ _
  · have hmark := UpdatePools.same_mark (pools.advance (work * max_length + depth) cursor) max_length
      ho hnext true
    exact ((hstay.apart other ho).trans hmark).trans (UpdatePools.same_enter _ graph ho hd _ _)
  · simp only [List.mem_cons, List.not_mem_nil, or_false] at he
    rcases he with rfl | rfl | rfl
    · exact in_slots_add (Nat.lt_of_succ_lt hd)
    · exact in_slots_add hnext
    · exact in_slots_add hd

variable (hp : DevicePhase graph changes max_length)
  (hstride : graph.vertex_count < 2 ^ 32 ∨ changes.length ≤ 1)

include hp hstride

theorem search_round_rounds (mine : changes[work]? = some change) (hd : depth + 1 < max_length)
    (hfirst : pools.path_pool (work * max_length) = change.target)
    (hv : pools.path_pool (work * max_length + depth) < graph.vertex_count)
    (hflagged : pools.Flagged graph work (path_of change.source
      (pools.open_rows graph (work * max_length) (depth + 1))))
    (hnew : 0 < depth → pools.path_pool (work * max_length + depth) ∉
      path_of change.source (pools.open_rows graph (work * max_length) depth)) :
    ∃ depth' pools' events,
      search_round graph.offsets graph.neighbors changes changes.length max_length
          (to_uint32 graph.vertex_count) work change (depth + 1) pools =
        ⟨some (.searching change depth'), pools', events⟩ ∧
      UpdateRounds graph max_length work change pools
        (pools.open_rows graph (work * max_length) depth)
        (frame_move (owned_rows graph changes work) change.source max_length
          (pools.path_pool (work * max_length + depth), graph.neighbors.extract
            (pools.cursor_pool (work * max_length + depth))
            (graph.offsets.getD (next_id (pools.path_pool (work * max_length + depth))) 0))
          (pools.open_rows graph (work * max_length) depth))
        depth' pools' events := by
  have hw : work < changes.length := (List.getElem?_eq_some_iff.mp mine).1
  have hslot := wrap_slot hp.stacks_fit hw (Nat.lt_of_succ_lt hd)
  have hlen : (pools.open_rows graph (work * max_length) depth).length = depth := stack_at_length _ _ _
  have hsub : depth + 1 - 1 = depth := rfl
  rw [search_round, frame_move, hlen]
  simp only [Int.toNat_natCast, hp.size_eq, hsub, hslot, Int.ofNat_le, Int.ofNat_lt]
  generalize hcursor : pools.cursor_pool (work * max_length + depth) = cursor
  by_cases hlast : cursor ≥ graph.offsets.getD (next_id (pools.path_pool (work * max_length + depth))) 0
  · rw [if_pos hlast, extract_eq_nil _ hlast, hp.flag_slot hstride hw hv]
    have hpop := update_pop (Nat.lt_of_succ_lt hd) hv hflagged hnew
    exact ⟨_, _, _, rfl, hpop⟩
  rw [if_neg hlast]
  obtain ⟨hnext, hid, hrow⟩ := hp.row_cons hv (Nat.lt_of_not_le hlast)
  rw [hrow]
  generalize graph.neighbors.getD cursor 0 = next at hnext hid ⊢
  obtain ⟨change_id, hfind, hbefore⟩ := find_change_eq hp.sorted (Nat.le_of_lt hp.length_lt)
    (pools.path_pool (work * max_length + depth)) next
  have hown : ∀ event ∈ [UpdateEvent.frame (work * max_length + depth)],
      OwnRegion graph max_length work event := by
    intro event he
    obtain rfl := List.mem_singleton.mp he
    exact in_slots_add (Nat.lt_of_succ_lt hd)
  have hflag : OwnRegion graph max_length work (.flag (work * graph.vertex_count + next)) :=
    in_slots_add hnext
  simp only [hfind, hp.flag_slot hstride hw hnext]
  have hstays : ∀ (lengths : List Nat) (pools' : UpdatePools) (events : List UpdateEvent),
      pools'.path_pool = pools.path_pool →
      pools'.cursor_pool = Function.update pools.cursor_pool (work * max_length + depth) (cursor + 1) →
      pools'.visited_pool = pools.visited_pool → events.filterMap UpdateEvent.bin = lengths →
      (∀ event ∈ events, OwnRegion graph max_length work event) →
      UpdateRounds graph max_length work change pools
        (pools.open_rows graph (work * max_length) depth) (.stay _ lengths) (depth + 1) pools' events :=
    fun lengths pools' events => update_stay (Nat.lt_of_succ_lt hd) hflagged
  have hadmits := hp.admits_iff work (pools.path_pool (work * max_length + depth)) hid
  have hpath : path_of change.source ((pools.path_pool (work * max_length + depth), next ::
      graph.neighbors.extract (cursor + 1)
        (graph.offsets.getD (next_id (pools.path_pool (work * max_length + depth))) 0)) ::
        pools.open_rows graph (work * max_length) depth) =
      path_of change.source (pools.open_rows graph (work * max_length) (depth + 1)) := rfl
  rw [hpath]
  by_cases hforbidden : (⟨pools.path_pool (work * max_length + depth), next⟩ : EdgeChange) ∈
      changes.take work
  · have hno : (owned_rows graph changes work).admits
        (pools.path_pool (work * max_length + depth)) next = false :=
      Bool.eq_false_iff.mpr fun h => hadmits.mp h hforbidden
    rw [if_pos ((hbefore work).mpr hforbidden), hno, if_pos (by decide)]
    exact ⟨_, _, _, rfl, hstays _ _ _ rfl rfl rfl rfl hown⟩
  have htarget : (owned_rows graph changes work).target next = next := rfl
  have hgoes : ¬(!true) = true := by decide
  rw [if_neg (mt (hbefore work).mp hforbidden), hadmits.mpr hforbidden, if_neg hgoes, htarget]
  by_cases hclose : next = change.source
  · have hlength : depth + 1 + 1 ≥ 2 ∧ depth + 1 + 1 ≤ max_length := by omega
    rw [if_pos hclose, if_pos hclose, if_pos hlength]
    refine ⟨_, _, _, rfl, hstays _ _ _ rfl rfl rfl rfl fun event he => ?_⟩
    rcases List.mem_pair.mp he with rfl | rfl
    · exact hown _ List.mem_cons_self
    · trivial
  rw [if_neg hclose, if_neg hclose]
  have hseen : (pools.advance (work * max_length + depth) (cursor + 1)).visited_pool
      (work * graph.vertex_count + next) = true ↔ next ∈ path_of change.source
        (pools.open_rows graph (work * max_length) (depth + 1)) := hflagged next hnext
  by_cases hfirst' : next = change.target
  · have hmem : next ∈ path_of change.source
        (pools.open_rows graph (work * max_length) (depth + 1)) := by
      rw [path_of, UpdatePools.open_rows_path, stack_at_bottom, hfirst, hfirst']
      simp
    rw [if_pos hfirst', if_pos (Or.inr hmem)]
    exact ⟨_, _, _, rfl, hstays _ _ _ rfl rfl rfl rfl hown⟩
  rw [if_neg hfirst']
  have hlook : ∀ event ∈ [UpdateEvent.frame (work * max_length + depth),
      UpdateEvent.flag (work * graph.vertex_count + next)],
      OwnRegion graph max_length work event := by
    intro event he
    rcases List.mem_pair.mp he with rfl | rfl
    · exact hown _ List.mem_cons_self
    · exact hflag
  by_cases hmem : next ∈ path_of change.source
      (pools.open_rows graph (work * max_length) (depth + 1))
  · rw [if_pos (hseen.mpr hmem), if_pos (Or.inr hmem)]
    exact ⟨_, _, _, rfl, hstays _ _ _ rfl rfl rfl rfl hlook⟩
  rw [if_neg (mt hseen.mp hmem)]
  by_cases hroom : depth + 1 + 1 < max_length
  · have hskip : ¬(depth + 2 ≥ max_length ∨ next ∈ path_of change.source
        (pools.open_rows graph (work * max_length) (depth + 1))) := not_or.mpr ⟨by omega, hmem⟩
    rw [if_pos hroom, if_neg hskip, wrap_slot hp.stacks_fit hw hd]
    exact ⟨_, _, _, rfl, update_push hd (Nat.succ_pos _) hnext hflagged⟩
  · rw [if_neg hroom, if_pos (Or.inl (by omega))]
    exact ⟨_, _, _, rfl, hstays _ _ _ rfl rfl rfl rfl hlook⟩

end Round

section Item

variable (graph : DirectedGraph) (changes : List EdgeChange) (max_length : Nat)

-- What holds of an item that searches.
structure UpdateSearching (work : Nat) (change : EdgeChange) (depth : Nat) (pools : UpdatePools) :
    Prop where
  mine : changes[work]? = some change
  first : pools.path_pool (work * max_length) = change.target
  open_search : OpenSearch (owned_rows graph changes work) change.source max_length
    (List.range graph.vertex_count) (pools.open_rows graph (work * max_length) depth)
  flagged : 0 < depth → pools.Flagged graph work
    (path_of change.source (pools.open_rows graph (work * max_length) depth))

-- The flags of an item that has not begun are down.
def UpdateGood (work : Nat) (register : UpdateRegister) (pools : UpdatePools) : Prop :=
  match register with
  | .asking => pools.Flagged graph work []
  | .searching change depth => UpdateSearching graph changes max_length work change depth pools

-- Only items do what others could notice.
def ItemEvent (work : Nat) (event : UpdateEvent) : Prop :=
  work < changes.length ∧ OwnRegion graph max_length work event

-- The lengths of the cycles that an item has still to count.
def update_pending (work : Nat) (register : UpdateRegister) (pools : UpdatePools) : List Nat :=
  match register with
  | .asking => changes[work]?.elim [] fun change =>
      (owned_closings graph changes max_length change work).map List.length
  | .searching change depth => frames_pending (owned_rows graph changes work) change.source
      max_length graph.vertex_count (pools.open_rows graph (work * max_length) depth)

def update_left (work : Nat) (register : UpdateRegister) (pools : UpdatePools) : Nat :=
  match register with
  | .asking => (graph.neighbors.length + 1) * (graph.neighbors.length + 2) ^ (max_length - 1 - 1) + 1
  | .searching _ depth => Parallel.work (fun frame => frame.2.length) graph.neighbors.length
      (max_length - 1) (pools.open_rows graph (work * max_length) depth)

abbrev UpdateStep : Nat → UpdateRegister → UpdatePools →
    Effect UpdateRegister UpdatePools UpdateEvent → Prop :=
  ItemStep (UpdatePools.Same graph max_length) (UpdateGood graph changes max_length) UpdateEvent.bin
    (ItemEvent graph changes max_length) (update_pending graph changes max_length)
    (update_left graph max_length)

end Item

section Step

variable {graph : DirectedGraph} {changes : List EdgeChange} {max_length work : Nat}
  (hp : DevicePhase graph changes max_length)

theorem owned_rows_most (graph : DirectedGraph) (changes : List EdgeChange) (work : Nat) :
    ∀ v ∈ List.range graph.vertex_count,
      ((owned_rows graph changes work).row v).length ≤ graph.neighbors.length := by
  intro v _
  change (graph.neighbors.extract _ _).length ≤ _
  rw [List.extract_eq_take_drop, List.length_take, List.length_drop]
  omega

include hp

theorem owned_rows_inside (work : Nat) : ∀ v, ∀ next ∈ (owned_rows graph changes work).row v,
    (owned_rows graph changes work).target next ∈ List.range graph.vertex_count :=
  fun v next hn => List.mem_range.mpr (hp.bounded v next hn)

variable (hstride : graph.vertex_count < 2 ^ 32 ∨ changes.length ≤ 1)

include hstride

theorem search_round_step {change : EdgeChange} {depth : Nat} {pools : UpdatePools}
    (h : UpdateSearching graph changes max_length work change (depth + 1) pools) :
    UpdateStep graph changes max_length work (.searching change (depth + 1)) pools
      (search_round graph.offsets graph.neighbors changes changes.length max_length
        (to_uint32 graph.vertex_count) work change (depth + 1) pools) := by
  obtain ⟨mine, hfirst, hopen, hflagged⟩ := h
  have hframes : pools.open_rows graph (work * max_length) (depth + 1) =
      (pools.path_pool (work * max_length + depth), graph.neighbors.extract
        (pools.cursor_pool (work * max_length + depth))
        (graph.offsets.getD (next_id (pools.path_pool (work * max_length + depth))) 0)) ::
        pools.open_rows graph (work * max_length) depth := rfl
  have hshort : depth + 1 < max_length := by
    have hshort := hopen.short
    rwa [UpdatePools.open_rows, stack_at_length] at hshort
  rw [hframes] at hopen
  have hv : pools.path_pool (work * max_length + depth) < graph.vertex_count :=
    List.mem_range.mp (hopen.inside _ List.mem_cons_self)
  have hnew : 0 < depth → pools.path_pool (work * max_length + depth) ∉
      path_of change.source (pools.open_rows graph (work * max_length) depth) := by
    intro hpos
    refine hopen.top_new fun hnil => ?_
    have hlen := congrArg List.length hnil
    rw [UpdatePools.open_rows, stack_at_length, List.length_nil] at hlen
    omega
  obtain ⟨depth', pools', events, hround, hrounds⟩ :=
    search_round_rounds hp hstride mine hshort hfirst hv (hflagged (Nat.succ_pos _)) hnew
  have hmoved := hopen.moves (owned_rows_inside hp work) (Nat.le_of_eq List.length_range)
    (owned_rows_most graph changes work)
  rw [hround]
  refine .goes ⟨mine, hrounds.first.trans hfirst, ?_, fun hpos => ?_⟩ hrounds.apart ?_ ?_
    fun event he => ⟨(List.getElem?_eq_some_iff.mp mine).1, hrounds.own event he⟩
  · rw [hrounds.frames]
    exact hmoved.open_frames
  · rw [hrounds.frames]
    exact hrounds.flagged hpos
  · rw [update_pending, update_pending, hrounds.frames, hrounds.counts, hframes]
    exact hmoved.pending
  · rw [update_left, update_left, hrounds.frames, hframes]
    exact work_apply_lt hmoved.uses

-- The first step of an item flags the ends of its change and opens the row of the target.
theorem search_start_step {change : EdgeChange} (mine : changes[work]? = some change)
    {pools : UpdatePools} (hclear : pools.Flagged graph work []) :
    UpdateStep graph changes max_length work .asking pools
      (search_start graph.offsets max_length (to_uint32 graph.vertex_count) work change pools) := by
  have hw : work < changes.length := (List.getElem?_eq_some_iff.mp mine).1
  obtain ⟨hsource, htarget⟩ := hp.vertices change (List.mem_of_getElem? mine)
  have hroom : 0 < max_length := Nat.lt_of_lt_of_le (by decide) hp.min_length
  have hpath := wrap_base hp.stacks_fit hw
  unfold search_start
  simp only [Int.toNat_natCast, hp.size_eq, hpath, hp.flag_slot hstride hw hsource,
    hp.flag_slot hstride hw htarget]
  generalize hmarked : (pools.mark (work * graph.vertex_count + change.source) true).mark
    (work * graph.vertex_count + change.target) true = marked
  have hframes : (marked.enter (work * max_length) change.target
      (graph.offsets.getD change.target 0)).open_rows graph (work * max_length) 1 =
      [(change.target, graph.read_row change.target)] :=
    UpdatePools.open_rows_enter marked graph (work * max_length) 0 change.target
  have hflagged : marked.Flagged graph work [change.target, change.source] :=
    hmarked ▸ hclear.mark_true.mark_true
  obtain ⟨hopen, hpending⟩ := open_search_start (owned_rows_inside hp work)
    (Nat.le_of_eq List.length_range) change.source (List.mem_range.mpr htarget) hp.min_length
  refine .goes ⟨mine, ?_, hframes ▸ hopen, fun _ => hframes ▸ hflagged⟩ (fun other ho => ?_) ?_ ?_ ?_
  · exact Function.update_self _ _ _
  · have hmark : pools.Same graph max_length other marked :=
      hmarked ▸ (pools.same_mark max_length ho hsource true).trans
        (UpdatePools.same_mark _ max_length ho htarget true)
    exact hmark.trans (UpdatePools.same_enter marked graph ho hroom _ _)
  · rw [update_pending, mine, Option.elim_some, update_pending, hframes, owned_closings,
      if_neg (Nat.not_lt.mpr hp.min_length), ← owned_rows_successors]
    exact hpending.symm
  · rw [update_left, update_left, hframes]
    exact Nat.lt_succ_of_le (work_single_le
      (owned_rows_most graph changes work _ (List.mem_range.mpr htarget)))
  · intro event he
    simp only [List.mem_cons, List.not_mem_nil, or_false] at he
    refine ⟨hw, ?_⟩
    rcases he with rfl | rfl | rfl
    · exact in_slots_add hsource
    · exact in_slots_add htarget
    · exact in_slots_add (k := 0) hroom

theorem update_item_step (hw : work < 2 ^ 31) {register : UpdateRegister} {pools : UpdatePools}
    (hgood : UpdateGood graph changes max_length work register pools) :
    UpdateStep graph changes max_length work register pools
      (count_owned_cycles_kernel graph.offsets graph.neighbors changes (to_int changes.length)
        max_length (to_uint32 graph.vertex_count) work register pools) := by
  have hcount : to_int changes.length = changes.length := to_int_eq (by
    have := hp.length_lt
    omega)
  unfold count_owned_cycles_kernel
  rw [hcount, to_int_eq hw]
  cases register with
  | asking =>
      dsimp only
      split_ifs with hend
      · refine .ends ?_
        rw [update_pending, List.getElem?_eq_none (by omega)]
        rfl
      · have mine : changes[work]? = some changes[work] := List.getElem?_eq_getElem (by omega)
        rw [change_at_natCast, mine]
        exact search_start_step hp hstride mine hgood
  | searching change depth =>
      dsimp only
      split_ifs with hd
      · obtain ⟨depth, rfl⟩ : ∃ d, depth = d + 1 := ⟨depth - 1, by omega⟩
        exact search_round_step hp hstride hgood
      · obtain rfl : depth = 0 := by omega
        exact .ends rfl

theorem update_items {threads : Nat} (hthreads : threads ≤ 2 ^ 31) :
    Items (count_owned_cycles_kernel graph.offsets graph.neighbors changes (to_int changes.length)
        max_length (to_uint32 graph.vertex_count))
      threads (UpdatePools.Same graph max_length) (UpdateGood graph changes max_length)
      UpdateEvent.bin (ItemEvent graph changes max_length) (update_pending graph changes max_length)
      (update_left graph max_length) := by
  refine items_of_steps (fun work pools => ⟨fun _ _ => ⟨rfl, rfl⟩, fun _ _ => rfl⟩) ?_
    fun work hw register pools hgood => update_item_step hp hstride (Nat.lt_of_lt_of_le hw hthreads) hgood
  intro work _ register pools pools' hsame hgood
  cases register with
  | asking => exact ⟨hsame.flagged.mpr hgood, rfl, rfl⟩
  | searching change depth =>
      have hshort := hgood.open_search.short
      rw [UpdatePools.open_rows, stack_at_length] at hshort
      have hframes := hsame.open_rows (Nat.le_of_lt hshort)
      have hbase := hsame.frames _ (in_slots_add (k := 0) (Nat.zero_lt_of_lt hshort))
      refine ⟨⟨hgood.mine, hbase.1.trans hgood.first, ?_, fun hpos => ?_⟩, ?_, ?_⟩
      · rw [hframes]
        exact hgood.open_search
      · rw [hframes]
        exact hsame.flagged.mpr (hgood.flagged hpos)
      · rw [update_pending, update_pending, hframes]
      · rw [update_left, update_left, hframes]

end Step

end CycleEnum.Dynamic
