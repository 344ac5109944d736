import CycleEnum.Sequential.Parsed
import CycleEnum.Sequential.TemporalBundles

namespace CycleEnum.Sequential

open TemporalJohnsonSearch

-- A start timestamp whose window leaves the timestamp range ends every temporal search,
-- however many vertices the graph has.

variable {graph : GraphView} {cap : Option Nat} {width : Int} {window : Prop}

-- The stacks of a temporal search: a start edge, then edges to vertices off the stack.
-- The start edge is a loop where the ids of its vertices were narrowed to the same one.
inductive Trail (graph : GraphView) (root : Nat) : List Nat → Prop
  | start {edge : AdjacencyEntry} (he : edge ∈ graph.outgoing_row root) :
      Trail graph root [edge.vertex, root]
  | push {v : Nat} {below : List Nat} {edge : AdjacencyEntry} (h : Trail graph root (v :: below))
      (he : edge ∈ graph.outgoing_row v) (hm : edge.vertex ∉ v :: below) :
      Trail graph root (edge.vertex :: v :: below)

-- What brings the search from one start event to its end.
structure TrailsEnd (graph : GraphView) : Prop where
  slices : Sliced graph
  bounded : ∀ v, ∀ edge ∈ graph.outgoing_row v, v < 2 ^ 32 ∧ edge.vertex < graph.vertex_count
  narrow : ∀ root v below, Trail graph root (v :: below) →
    ∀ edge ∈ graph.outgoing_row v, edge.vertex = root → (v :: below).length < 2 ^ 32

section Trails

variable {root : Nat} {stack : List Nat}

theorem Trail.two_le (h : Trail graph root stack) : 2 ≤ stack.length := by
  cases h with
  | start => exact Nat.le_refl 2
  | push => simp

theorem Trail.root_mem (h : Trail graph root stack) : root ∈ stack.tail := by
  induction h with
  | start => exact List.mem_singleton_self _
  | push _ _ _ ih => exact List.mem_cons_of_mem _ ih

-- Only the first vertex can be the root once more.
theorem Trail.nodup (h : Trail graph root stack) : stack.dropLast.Nodup := by
  induction h with
  | start => exact List.nodup_singleton _
  | push h he hm ih => exact List.nodup_cons.mpr ⟨fun hv => hm (List.mem_of_mem_dropLast hv), ih⟩

theorem Trail.entered (h : Trail graph root stack) :
    ∀ v ∈ stack.dropLast, ∃ u, ∃ edge ∈ graph.outgoing_row u, edge.vertex = v := by
  induction h with
  | start he =>
      intro v hv
      exact ⟨root, _, he, (List.mem_singleton.mp hv).symm⟩
  | push h he hm ih =>
      intro v hv
      rcases List.mem_cons.mp hv with rfl | hv
      · exact ⟨_, _, he, rfl⟩
      · exact ih v hv

theorem Trail.left (h : Trail graph root stack) : ∀ v ∈ stack.tail, graph.outgoing_row v ≠ [] := by
  induction h with
  | start he =>
      intro v hv
      rw [List.mem_singleton.mp hv]
      exact List.ne_nil_of_mem he
  | push h he hm ih =>
      intro v hv
      rcases List.mem_cons.mp hv with rfl | hv
      · exact List.ne_nil_of_mem he
      · exact ih v hv

theorem Trail.loop (h : Trail graph root stack) (hroot : root ∈ stack.dropLast) :
    ∃ edge ∈ graph.outgoing_row root, edge.vertex = root := by
  induction h with
  | start he => exact ⟨_, he, (List.mem_singleton.mp hroot).symm⟩
  | push h he hm ih =>
      rcases List.mem_cons.mp hroot with heq | hroot
      · exact absurd (List.mem_of_mem_tail h.root_mem) (heq ▸ hm)
      · exact ih hroot

-- The root is on top at the start only.
theorem Trail.length_of_root {below : List Nat} (h : Trail graph root (root :: below)) :
    (root :: below).length = 2 := by
  cases h with
  | start => rfl
  | push h _ hm => exact absurd (List.mem_of_mem_tail h.root_mem) hm

theorem Trail.length_le (hbounded : ∀ v, ∀ edge ∈ graph.outgoing_row v, edge.vertex < graph.vertex_count)
    (h : Trail graph root stack) : stack.length ≤ graph.vertex_count + 1 := by
  have hsub : stack.dropLast ⊆ List.range graph.vertex_count := by
    intro v hv
    obtain ⟨u, edge, he, rfl⟩ := h.entered v hv
    exact List.mem_range.mpr (hbounded u edge he)
  have hlen := (h.nodup.subperm hsub).length_le
  rw [List.length_dropLast, List.length_range] at hlen
  omega

-- Every vertex but the root at the bottom is the target of an edge of its own, and the
-- edge that closes the trail is another one.
theorem Trail.narrow {arcs : List (Nat × Nat)}
    (harcs : ∀ v, ∀ edge ∈ graph.outgoing_row v, (v, edge.vertex) ∈ arcs)
    (hfew : arcs.length ≤ MAX_EDGE_ID) {v : Nat} {below : List Nat}
    (h : Trail graph root (v :: below)) {edge : AdjacencyEntry} (he : edge ∈ graph.outgoing_row v)
    (hclose : edge.vertex = root) : (v :: below).length < 2 ^ 32 := by
  have hlen := h.two_le
  have hfront : (v :: below).dropLast.length = (v :: below).length - 1 := List.length_dropLast
  have htargets : (v :: below).dropLast ⊆ arcs.map Prod.snd := by
    intro u hu
    obtain ⟨w, entry, hentry, rfl⟩ := h.entered u hu
    exact List.mem_map_of_mem (harcs w entry hentry)
  have hback : (v, root) ∈ arcs := hclose ▸ harcs v edge he
  have hle := (h.nodup.subperm htargets).length_le
  rw [List.length_map] at hle
  rw [MAX_EDGE_ID] at hfew
  by_cases hroot : root ∈ (v :: below).dropLast
  · by_contra hlong
    -- all arcs are used, so no two of them lead to the root
    have hperm : (v :: below).dropLast.Perm (arcs.map Prod.snd) :=
      (h.nodup.subperm htargets).perm_of_length_le (by rw [List.length_map]; omega)
    obtain ⟨entry, hentry, hloop⟩ := h.loop hroot
    have hsame : ((v, root) : Nat × Nat) = (root, root) :=
      List.inj_on_of_nodup_map (hperm.nodup_iff.mp h.nodup) hback
        (hloop ▸ harcs root entry hentry) rfl
    obtain rfl : v = root := congrArg Prod.fst hsame
    have := h.length_of_root
    omega
  · have hmore : (root :: (v :: below).dropLast) ⊆ arcs.map Prod.snd :=
      List.cons_subset.mpr ⟨List.mem_map_of_mem hback, htargets⟩
    have hle := ((List.nodup_cons.mpr ⟨hroot, h.nodup⟩).subperm hmore).length_le
    rw [List.length_map, List.length_cons] at hle
    omega

end Trails

theorem TrailsEnd.of_well_formed (hw : graph.WellFormed) : TrailsEnd graph where
  slices := hw.slices
  bounded v edge he := ⟨(hw.bounded v edge he).1.trans hw.counted, (hw.bounded v edge he).2⟩
  narrow root v below h edge he hclose := by
    have hnodup : (v :: below).Nodup := by
      clear he hclose
      generalize v :: below = stack at h
      induction h with
      | start he => simpa using hw.no_loop _ _ he
      | push _ _ hm ih => exact List.nodup_cons.mpr ⟨hm, ih⟩
    refine hw.narrow _ hnodup fun u hu => ?_
    rcases List.mem_cons.mp hu with rfl | hu
    · exact List.ne_nil_of_mem he
    · exact h.left u hu

theorem Parsed.outgoing_start (hg : Parsed graph) : graph.outgoing_offsets.getD 0 0 = 0 := by
  obtain ⟨rows, h⟩ := hg
  exact (build_graph_view_ok h).2.2.2.1

theorem Parsed.trails_end (hg : Parsed graph) : TrailsEnd graph := by
  have hstored : ∀ v, ∀ edge ∈ graph.outgoing_row v, edge ∈ graph.outgoing_entries v :=
    fun v edge he => mem_stored_row hg.outgoing_start he
  obtain ⟨rows, h⟩ := hg
  have harcs : ∀ v, ∀ edge ∈ graph.outgoing_row v, (v, edge.vertex) ∈
      (parsed_graph rows).edges.map fun edge => (edge.source, edge.target) := by
    intro v entry he
    obtain ⟨edge, hedge, -, rfl, hp⟩ := mem_row_placed h (hstored v entry he)
    rw [(placed_slice [] 0 _ edge entry hp).1]
    exact List.mem_map_of_mem hedge
  refine ⟨fun v edge he => slices_of_build (parsed_graph_sorted rows) h v edge (hstored v edge he),
    fun v entry he => ⟨?_, (bounded_of_build (parsed_graph_endpoints rows) h v entry
      (hstored v entry he)).2⟩,
    fun root v below htrail edge he hclose => htrail.narrow harcs ?_ he hclose⟩
  · obtain ⟨edge, hedge, -, rfl, -⟩ := mem_row_placed h (hstored v entry he)
    obtain ⟨raw_edge, -, -, hsource, -⟩ := mem_parsed_graph hedge
    rw [hsource]
    exact Nat.mod_lt _ (by decide)
  · rw [List.length_map]
    exact (build_graph_view_ok h).1

theorem TrailsEnd.length_le (hg : TrailsEnd graph) {root v : Nat} {below : List Nat}
    (h : Trail graph root (v :: below)) : below.length ≤ graph.vertex_count :=
  Nat.le_of_succ_le_succ (h.length_le fun v edge he => (hg.bounded v edge he).2)

-- The length that a closed trail is counted at.
theorem TrailsEnd.two_le (hg : TrailsEnd graph) {root v : Nat} {below : List Nat}
    (h : Trail graph root (v :: below)) {edge : AdjacencyEntry} (he : edge ∈ graph.outgoing_row v)
    (hclose : edge.vertex = root) : 2 ≤ length_of_size (v :: below).length := by
  rw [length_of_size_eq (hg.narrow root v below h edge he hclose)]
  exact h.two_le

section Searches

variable (cap) (hg : TrailsEnd graph) {root : Nat} (window_end : Int)

include hg

theorem temporal_dfs_settles (fuel v : Nat) (previous : Int) (below : List Nat)
    (h : Trail graph root (v :: below)) (hfuel : graph.vertex_count < below.length + fuel) :
    (temporal_dfs graph cap root window_end fuel v previous (PathState.at (v :: below))).Settles
      window (· = PathState.at (v :: below)) := by
  induction fuel generalizing v previous below with
  | zero =>
      have := hg.length_le h
      omega
  | succ fuel ih =>
      rw [temporal_dfs]
      refine Search.Settles.foldlM (fun edge he state hstate => ?_) _ rfl
      subst hstate
      obtain ⟨range, hr, -⟩ := timestamps_after_later hg.slices he previous window_end
      refine (Search.emits_ofExcept hr).settles_then ?_
      split_ifs with hempty hclose hvisited hcut
      · exact Search.settles_pure rfl
      · exact (Search.settles_increment _ (hg.two_le h he hclose.1)).bind fun _ _ =>
          Search.settles_pure rfl
      · exact Search.settles_pure rfl
      · exact Search.settles_pure rfl
      · have hm : edge.vertex ∉ v :: below := by simpa [PathState.at] using hvisited
        rw [PathState.push_at]
        have hloop : (range.offsets.foldlM (fun state next_timestamp_offset =>
            temporal_dfs graph cap root window_end fuel edge.vertex
              (timestamp_at graph.timestamps next_timestamp_offset) state)
            (PathState.at (edge.vertex :: v :: below))).Settles window
              (· = PathState.at (edge.vertex :: v :: below)) := by
          refine Search.Settles.foldlM (fun offset _ state hstate => ?_) _ rfl
          rw [hstate]
          exact ih edge.vertex _ (v :: below) (h.push he hm) (by rw [List.length_cons]; omega)
        refine hloop.bind fun state hstate => ?_
        rw [hstate, PathState.pop_at hm]
        exact Search.settles_pure rfl

theorem extend_settles (fuel v : Nat) (previous : Int) (below : List Nat)
    (h : Trail graph root (v :: below)) (hfuel : graph.vertex_count < below.length + fuel)
    (state : TimedState)
    (hstate : state.OnStack graph root window_end (v :: below)) :
    (TemporalReadTarjanSearch.extend graph cap root window_end fuel v previous state).Settles window
      fun state => state.OnStack graph root window_end (v :: below) := by
  induction fuel generalizing v previous below state with
  | zero =>
      have := hg.length_le h
      omega
  | succ fuel ih =>
      obtain ⟨reached, closing_after, hreach, hstate, -⟩ :=
        can_reach_root_emits hg.slices root window_end v previous hstate
      refine hreach.settles_then ?_
      cases reached with
      | false => exact Search.settles_pure hstate
      | true =>
          refine Search.Settles.foldlM (fun edge he state hstate => ?_) _ hstate
          obtain ⟨range, hr, -⟩ := timestamps_after_later hg.slices he previous window_end
          have hpath : state.path.path = v :: below := by rw [hstate.1]; rfl
          refine (Search.emits_ofExcept hr).settles_then ?_
          split_ifs with hempty hclose hvisited hcut
          · exact Search.settles_pure hstate
          · rw [hpath]
            exact (Search.settles_increment _ (hg.two_le h he hclose.1)).bind fun _ _ =>
              Search.settles_pure hstate
          · exact Search.settles_pure hstate
          · exact Search.settles_pure hstate
          · have hm : edge.vertex ∉ v :: below := by
              rw [hstate.1] at hvisited
              simpa [PathState.at] using hvisited
            have hloop := Search.Settles.foldlM (fun offset (_ : offset ∈ range.offsets) state hstate =>
              ih edge.vertex (timestamp_at graph.timestamps offset) (v :: below) (h.push he hm)
                (by rw [List.length_cons]; omega) state hstate) _ (hstate.push edge.vertex)
            exact hloop.bind fun state hstate => Search.settles_pure (hstate.pop hm)

theorem dfs_settles (fuel v : Nat) (arrivals : TimestampBundle) (below : List Nat)
    (h : Trail graph root (v :: below)) (hfuel : graph.vertex_count < below.length + fuel)
    (state : TemporalJohnsonState)
    (hstate : state.search.OnStack graph root window_end (v :: below)) :
    (dfs graph cap root window_end fuel v arrivals state).Settles window
      (OnPathState graph root window_end (v :: below)) := by
  induction fuel generalizing v arrivals below state with
  | zero =>
      have := hg.length_le h
      omega
  | succ fuel ih =>
      obtain ⟨search, stats⟩ := state
      cases arrivals with
      | nil => exact Search.settles_pure hstate
      | cons earliest arrivals =>
          obtain ⟨reached, closing_after, hreach, hstate, -⟩ :=
            can_reach_root_emits hg.slices root window_end v earliest.timestamp hstate
          refine hreach.settles_then ?_
          cases reached with
          | false => exact Search.settles_pure hstate
          | true =>
              refine Search.Settles.foldlM (fun edge he result hresult => ?_) _ hstate
              obtain ⟨found_cycle, state⟩ := result
              have hpath : state.search.path.path = v :: below := by
                rw [hresult.1]
                rfl
              dsimp only
              split_ifs with hclose hvisited hcut
              · refine (Search.settles_ofExcept (closing_count_gives hg.slices he window_end
                  (earliest :: arrivals))).bind fun count _ => ?_
                split_ifs
                · exact Search.settles_pure hresult
                · rw [hpath]
                  exact (Search.settles_increment _ (hg.two_le h he hclose.1)).bind fun _ _ =>
                    Search.settles_pure hresult
              · exact Search.settles_pure hresult
              · exact Search.settles_pure hresult
              · have hm : edge.vertex ∉ v :: below := by
                  rw [hresult.1] at hvisited
                  simpa [PathState.at] using hvisited
                refine (Search.settles_ofExcept (extend_bundle_gives hg.slices he window_end
                  (earliest :: arrivals))).bind fun next_arrivals _ => ?_
                split_ifs
                · exact Search.settles_pure hresult
                · refine (ih edge.vertex next_arrivals (v :: below) (h.push he hm)
                    (by rw [List.length_cons]; omega)
                    { state with search := state.search.push edge.vertex }
                    (hresult.push edge.vertex)).bind ?_
                  rintro ⟨found, state'⟩ hs
                  exact Search.settles_pure (hs.pop hm)

end Searches

section Roots

variable {σ : Type} {vertex_count late : Nat} {body : σ → Nat → Search σ} {kind : σ → Prop}
  (hbody : ∀ root state, kind state → (body state root).Settles window kind)
  (hlate : late < vertex_count) (hid : late < 2 ^ 32)
  (hstop : ∀ state, kind state → (body state late).Overflows window)

include hbody hlate hid hstop

theorem root_loop_overflows {fuel root : Nat} (hroot : root ≤ late) (hfuel : late - root < fuel)
    {state : σ} (hstate : kind state) :
    (root_loop vertex_count body fuel root state).Overflows window := by
  induction fuel generalizing root state with
  | zero => omega
  | succ fuel ih =>
      rw [root_loop, if_pos (by omega)]
      rcases Nat.lt_or_eq_of_le hroot with hlt | rfl
      · refine (hbody root state hstate).bind_overflows fun next hnext => ?_
        rw [next_id_eq (by omega)]
        exact ih hlt (by omega) hnext
      · exact (hstop state hstate).bind

-- A root before the ids wrap ends the loop, also where it would not end by itself.
theorem for_each_root_overflows {state : σ} (hstate : kind state) :
    (for_each_root vertex_count body state).Overflows window :=
  root_loop_overflows hbody hlate hid hstop (Nat.zero_le _) (by omega) hstate

end Roots

section Starts

theorem exists_late_start (h0 : 0 ≤ width) (hover : ¬NoWindowOverflow graph width) :
    ∃ start ∈ starts graph, checked_window_end (start.time graph) width =
      .error (.overflow_error "time window end overflows timestamp range") := by
  unfold NoWindowOverflow at hover
  push Not at hover
  obtain ⟨start, hs, hlt⟩ := hover
  exact ⟨start, hs, checked_window_end_overflow h0 hlt⟩

-- The check of the window, and a search where it passes.
theorem window_check_settles {α : Type} {kind : α → Prop} (h0 : 0 ≤ width) (time : Int)
    {search : Int → Search α} (h : ∀ window_end, (search window_end).Settles True kind) :
    Search.Settles True (do
      let window_end ← Search.ofExcept (checked_window_end time width)
      search window_end) kind := by
  by_cases hle : time ≤ MAX_TIMESTAMP - width
  · exact (Search.emits_ofExcept (checked_window_end_ok h0 hle)).settles_then (h _)
  · exact (Search.overflows_ofExcept (checked_window_end_overflow h0 (by omega))
      (Or.inr trivial)).bind.settles

variable (hg : TrailsEnd graph) (h0 : 0 ≤ width) (hover : ¬NoWindowOverflow graph width)

include hg h0 hover

theorem for_each_start_overflows {search : Nat → AdjacencyEntry → Int → Int → Search Unit}
    (hsearch : ∀ root, ∀ edge ∈ graph.outgoing_row root, ∀ time window_end,
      (search root edge time window_end).Settles True fun _ => True) :
    ∃ what, (for_each_start graph fun root edge time => do
      let window_end ← Search.ofExcept (checked_window_end time width)
      search root edge time window_end).histogram = .error (.overflow_error what) := by
  obtain ⟨start, hs, hlate⟩ := exists_late_start h0 hover
  obtain ⟨hroot, he, hlow, hhigh⟩ := mem_starts.mp hs
  have hstart : ∀ root, ∀ edge ∈ graph.outgoing_row root, ∀ time, Search.Settles True (do
      let window_end ← Search.ofExcept (checked_window_end time width)
      search root edge time window_end) fun _ => True := fun root edge he time =>
    window_check_settles h0 time (hsearch root edge he time)
  have hoffset : start.offset ∈ List.range' start.edge.timestamp_begin
      (start.edge.timestamp_end - start.edge.timestamp_begin) := by
    rw [List.mem_range'_1]
    omega
  refine @Search.Overflows.histogram True _ (@for_each_root_overflows True Unit _ start.root _
    (fun _ => True) (fun root _ _ => ?_) hroot (hg.bounded start.root start.edge he).1
    (fun _ _ => ?_) () trivial)
  · exact Search.settles_forM fun edge he => Search.settles_forM fun offset _ =>
      hstart root edge he _
  · have hedge := Search.overflows_forM (fun offset _ => hstart start.root start.edge he _)
      ⟨start.offset, hoffset, (Search.overflows_ofExcept hlate (Or.inr trivial)).bind⟩
    exact Search.overflows_forM (fun edge he => Search.settles_forM fun offset _ =>
      hstart start.root edge he _) ⟨start.edge, he, hedge⟩

theorem run_overflows (cap : Option Nat) : (run graph width cap).Overflows True := by
  obtain ⟨start, hs, hlate⟩ := exists_late_start h0 hover
  obtain ⟨hroot, he, hlow, hhigh⟩ := mem_starts.mp hs
  have hstart : ∀ root, ∀ edge ∈ graph.outgoing_row root, ∀ bundle stats,
      (TemporalJohnsonSearch.start graph width cap root edge.vertex stats bundle).Settles True
        fun _ => True := fun root edge he bundle stats =>
    window_check_settles h0 bundle.timestamp fun window_end =>
      (dfs_settles cap hg window_end graph.vertex_count edge.vertex [bundle] [root] (.start he)
        (by simp) _ (TimedState.on_stack_start graph root edge.vertex window_end)).bind
          fun _ _ => Search.settles_pure trivial
  have hrow : ∀ root, ∀ edge ∈ graph.outgoing_row root, ∀ stats : TemporalJohnsonStats,
      Search.Settles True (do
        let counts ← Search.ofExcept (start_counts graph edge)
        counts.foldlM (TemporalJohnsonSearch.start graph width cap root edge.vertex) stats)
        fun _ => True := fun root edge he stats =>
    (Search.settles_ofExcept (start_counts_gives graph edge)).bind fun counts _ =>
      Search.Settles.foldlM (fun bundle _ stats _ => hstart root edge he bundle stats) stats trivial
  refine @for_each_root_overflows True TemporalJohnsonStats _ start.root _ (fun _ => True)
    (fun root stats _ => ?_) hroot (hg.bounded start.root start.edge he).1 (fun stats _ => ?_) _
    trivial
  · exact Search.Settles.foldlM (fun edge he stats _ => hrow root edge he stats) stats trivial
  · refine Search.overflows_foldlM (fun edge he stats _ => hrow start.root edge he stats)
      ⟨start.edge, he, fun stats _ => ?_⟩ stats trivial
    refine (Search.settles_ofExcept (start_counts_gives graph start.edge)).bind_overflows
      fun counts hc => ?_
    -- one of the bundles of the edge starts too late
    have hoffset : start.offset ∈ edge_events start.edge := by
      rw [edge_events, List.mem_range'_1]
      omega
    obtain ⟨bundle, hb, htime⟩ := List.mem_map.mp ((hc.times (start.time graph)).mpr
      (Or.inr (List.mem_map.mpr ⟨_, List.mem_map_of_mem hoffset, rfl⟩)))
    refine Search.overflows_foldlM (fun bundle _ stats _ => hstart start.root start.edge he bundle stats)
      ⟨bundle, hb, fun stats _ => ?_⟩ stats trivial
    rw [← htime] at hlate
    exact (Search.overflows_ofExcept hlate (Or.inr trivial)).bind

variable (hcap : ∀ limit ∈ cap, 2 ≤ limit)

include hcap

theorem count_temporal_cycles_bruteforce_overflows :
    ∃ what, count_temporal_cycles_bruteforce graph width cap = .error (.overflow_error what) := by
  rw [count_temporal_cycles_bruteforce, validate_max_cycle_length_ok hcap,
    validate_window_width_ok h0]
  refine for_each_start_overflows hg h0 hover fun root edge he time window_end => ?_
  rw [PathState.start_eq]
  exact (temporal_dfs_settles cap hg window_end graph.vertex_count edge.vertex time [root]
    (.start he) (by simp)).bind fun _ _ => Search.settles_pure trivial

variable (hmax : width ≤ MAX_TIMESTAMP)

include hmax

theorem count_temporal_cycles_read_tarjan_overflows :
    ∃ what, count_temporal_cycles_read_tarjan graph width cap = .error (.overflow_error what) := by
  rw [count_temporal_cycles_read_tarjan, validate_max_cycle_length_ok hcap,
    checked_window_end_zero h0 hmax]
  refine for_each_start_overflows hg h0 hover fun root edge he time window_end => ?_
  exact (extend_settles cap hg window_end graph.vertex_count edge.vertex time [root] (.start he)
    (by simp) _ (TimedState.on_stack_start graph root edge.vertex window_end)).bind fun _ _ =>
      Search.settles_pure trivial

theorem count_temporal_cycles_johnson_overflows :
    ∃ what, count_temporal_cycles_johnson graph width cap = .error (.overflow_error what) := by
  rw [count_temporal_cycles_johnson_run h0 hmax hcap]
  obtain ⟨what, -, hstop⟩ := run_overflows hg h0 hover cap ∅
  exact ⟨what, by rw [hstop]; rfl⟩

end Starts

end CycleEnum.Sequential
