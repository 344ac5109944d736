import CycleEnum.Enumeration.Johnson

namespace CycleEnum.Enumeration

variable {V : Type}

-- What freeing `v` reaches through the lists of freed vertices, along blocked vertices.
inductive Blocking.Freed (b : Blocking V) (v : V) : V → Prop
  | self : Blocking.Freed b v v
  | dependent {x y : V} (h : Blocking.Freed b v x) (hy : y ∈ b.blockedList x)
      (hb : b.blocked y = true) : Blocking.Freed b v y

-- Every way from `x` to the root by admissible arcs meets the path before it ends.
def Meets (succ : V → List V) (root : V) (path : List V) (x : V) : Prop :=
  ∀ route : List V, (x :: (route ++ [root])).IsChain (fun a b => b ∈ succ a) →
    ∃ y ∈ route, y ∈ path

-- Johnson's invariant between two calls, for the path in use.
structure JohnsonInvariant (succ : V → List V) (root : V) (path : List V) (b : Blocking V) :
    Prop where
  on_path : ∀ x ∈ path, x ≠ root → b.blocked x = true
  successors : ∀ x, b.blocked x = true → x ∉ path → ∀ y ∈ succ x, y ≠ root →
    b.blocked y = true ∧ x ∈ b.blockedList y
  no_root : ∀ x, b.blocked x = true → x ∉ path → root ∉ succ x
  meets : ∀ x, b.blocked x = true → x ∉ path → Meets succ root path x

-- A call that frees `v` ends, and frees `v`, what is reached from it, and nothing else. The
-- rest of the path stays as it is.
structure FreesExactly [DecidableEq V] (verts : List V) (v : V) (path : List V) (b : Blocking V) :
    Prop where
  exact : ∃ b', b.unblock verts v = some b' ∧
    ∀ x, b'.blocked x = true ↔ b.blocked x = true ∧ ¬b.Freed v x
  others : ∀ x ∈ path, x ≠ v → ¬b.Freed v x

variable {succ : V → List V} {root : V} {verts : List V}

theorem meets_of_not_reaches {path : List V} {x : V} (h : ¬Reaches succ root {y | y ∈ path} x) :
    Meets succ root path x := by
  intro route hroute
  by_contra hno
  apply h
  clear h
  induction route generalizing x with
  | nil => exact .close (List.isChain_cons_cons.mp hroute).1
  | cons next route ih =>
      obtain ⟨hnext, hrest⟩ := List.isChain_cons_cons.mp hroute
      have hmem : next ∉ path := fun hm => hno ⟨next, List.mem_cons_self, hm⟩
      refine .step hnext hmem (ih hrest fun hmeets => hno ?_)
      obtain ⟨y, hy, hm⟩ := hmeets
      exact ⟨y, List.mem_cons_of_mem _ hy, hm⟩

theorem Blocks.invariant {stack : List V} {b : Blocking V}
    (h : Blocks succ root verts stack b) : JohnsonInvariant succ root stack b where
  on_path := h.path
  successors x hx hs y hy _ := (h.off x hx hs y hy).2
  no_root x hx hs hr := (h.off x hx hs root hr).1 rfl
  meets _ hx hs := meets_of_not_reaches (h.not_reaches hx hs)

section Freeing

variable [DecidableEq V]

theorem Blocking.Drained.freed_iff {v : V} {b b' : Blocking V} (hv : b.blocked v = true)
    (hfree : ∀ x, b.blocked x = false → b.blockedList x = [])
    (h : Blocking.Drained v (b.mark v false) b') (x : V) :
    b'.blocked x = true ↔ b.blocked x = true ∧ ¬b.Freed v x := by
  have hunblocked : ∀ {x}, b.Freed v x → b'.blocked x = false ∧ b.blocked x = true := by
    intro x hx
    induction hx with
    | self =>
        refine ⟨Bool.eq_false_iff.mpr fun ht => ?_, hv⟩
        have := h.shrinks v ht
        simp at this
    | @dependent x y _ hy hb ih =>
        refine ⟨?_, hb⟩
        have hcase : x = v ∨ ((b.mark v false).blocked x = true ∧ b'.blocked x = false) := by
          by_cases hxv : x = v
          · exact Or.inl hxv
          · exact Or.inr ⟨by rw [Blocking.mark_blocked, if_neg hxv, ih.2], ih.1⟩
        exact (h.freed x hcase).2 y hy
  constructor
  · intro hx
    have hmarked := h.shrinks x hx
    rw [Blocking.mark_blocked] at hmarked
    split_ifs at hmarked with hxv
    refine ⟨hmarked, fun hfreed => ?_⟩
    rw [(hunblocked hfreed).1] at hx
    cases hx
  · intro hx
    obtain ⟨hbx, hno⟩ := hx
    -- the blocked vertices that are not reached are safe
    refine h.spared {x | b.blocked x = true ∧ ¬b.Freed v x} (fun hsafe => hsafe.2 .self) ?_ x
      ⟨hbx, hno⟩ ?_
    · intro u hu y hy hsafe
      apply hu
      refine ⟨?_, fun hfreed => hsafe.2 (.dependent hfreed hy hsafe.1)⟩
      by_contra hbu
      rw [Blocking.mark_blockedList, hfree u (Bool.eq_false_iff.mpr hbu)] at hy
      cases hy
    · have hxv : x ≠ v := by
        rintro rfl
        exact hno .self
      rw [Blocking.mark_blocked, if_neg hxv, hbx]

end Freeing

section Unlisted

variable [DecidableEq V]

def Unlisted (root : V) (b : Blocking V) : Prop := ∀ x, root ∉ b.blockedList x

theorem drain_unlisted (fuel : Nat) (v : V) {b b' : Blocking V}
    (h : Blocking.drain fuel v b = some b') (hb : Unlisted root b) : Unlisted root b' := by
  induction fuel generalizing v b b' with
  | zero => cases h
  | succ fuel ih =>
      rw [Blocking.drain] at h
      split at h
      · rwa [← Option.some.inj h]
      · next dependent rest hlist =>
          have hrest : Unlisted root (b.setList v rest) := by
            intro x hx
            rw [Blocking.setList_blockedList] at hx
            split_ifs at hx with hxv
            · exact hb v (hlist ▸ List.mem_cons_of_mem _ hx)
            · exact hb x hx
          split_ifs at h with hblocked
          · obtain ⟨middle, hdependent, hmore⟩ := Option.bind_eq_some_iff.mp h
            exact ih v hmore (ih dependent hdependent hrest)
          · exact ih v h hrest

theorem foldlM_some_keeps {α σ : Type} {step : σ → α → Option σ} {holds : σ → Prop} {row : List α}
    (hstep : ∀ a ∈ row, ∀ state state', step state a = some state' → holds state → holds state')
    {state state' : σ} (h : row.foldlM step state = some state') (hs : holds state) :
    holds state' := by
  induction row generalizing state with
  | nil => rwa [← Option.some.inj h]
  | cons a row ih =>
      rw [List.foldlM_cons] at h
      obtain ⟨middle, hfirst, hrest⟩ := Option.bind_eq_some_iff.mp h
      exact ih (fun b hb => hstep b (List.mem_cons_of_mem a hb)) hrest
        (hstep a List.mem_cons_self state middle hfirst hs)

theorem scan_unlisted {cap : Option Nat} {stack : List V}
    {enter : V → Blocking V → Option (Report V)}
    (henter : ∀ next marks report, next ≠ root → enter next marks = some report →
      Unlisted root marks → Unlisted root report.marks)
    {report report' : Report V} {next : V}
    (h : scan root cap stack enter report next = some report')
    (hs : Unlisted root report.marks) : Unlisted root report'.marks := by
  unfold scan at h
  split_ifs at h with hr hb hc
  · rwa [← Option.some.inj h]
  · rwa [← Option.some.inj h]
  · rwa [← Option.some.inj h]
  · obtain ⟨inner, hinner, heq⟩ := Option.bind_eq_some_iff.mp h
    rw [← Option.some.inj heq]
    exact henter next report.marks inner hr hinner hs

-- Only a vertex that is entered gets on a list.
theorem circuit_unlisted {cap : Option Nat} (fuel : Nat) (below : List V) (v : V)
    (b : Blocking V) (report : Report V) (hv : v ≠ root)
    (h : circuit succ root cap verts fuel below v b = some report) (hb : Unlisted root b) :
    Unlisted root report.marks := by
  induction fuel generalizing below v b report with
  | zero => cases h
  | succ fuel ih =>
      obtain ⟨scanned, hscan, hleave⟩ := Option.bind_eq_some_iff.mp h
      have hscanned : Unlisted root scanned.marks :=
        @foldlM_some_keeps _ _ _ (fun report : Report V => Unlisted root report.marks) _
          (fun next _ state state' hstep hs => scan_unlisted (ih (v :: below)) hstep hs) _ _ hscan hb
      unfold leave at hleave
      split_ifs at hleave with hfound
      · obtain ⟨marks, hmarks, heq⟩ := Option.map_eq_some_iff.mp hleave
        rw [← heq]
        exact drain_unlisted _ v hmarks hscanned
      · rw [← Option.some.inj hleave]
        intro x hx
        rw [Blocking.register_blockedList] at hx
        split_ifs at hx
        · rcases List.mem_cons.mp hx with heq | hx
          · exact hv heq.symm
          · exact hscanned x hx
        · exact hscanned x hx

end Unlisted

section Calls

variable [DecidableEq V]

-- The start of a call of the unbounded search.
structure Entered (succ : V → List V) (root : V) (verts : List V) (fuel : Nat) (below : List V)
    (v : V) (b : Blocking V) : Prop where
  blocks : Blocks succ root verts below b
  unlisted : Unlisted root b
  free : b.blocked v = false
  nodup : (v :: below).Nodup
  mem : ∀ x ∈ v :: below, x ∈ verts
  fuel : verts.length < (v :: below).length + fuel

variable {fuel : Nat} {below : List V} {v : V} {b : Blocking V} {report : Report V}

theorem Entered.next {before : List V} {next : V} (h : Entered succ root verts (fuel + 1) below v b)
    (hverts : ∀ v, ∀ next ∈ succ v, next ∈ verts) (hnext : next ∈ succ v)
    (hs : Scanned succ root none verts fuel below v b before report)
    (hunlisted : Unlisted root report.marks) (hne : next ≠ root)
    (hfree : report.marks.blocked next = false) :
    Entered succ root verts fuel (v :: below) next report.marks where
  blocks := hs.blocks
  unlisted := hunlisted
  free := hfree
  nodup := by
    refine List.nodup_cons.mpr ⟨fun hm => ?_, h.nodup⟩
    rw [hs.blocks.path next hm hne] at hfree
    cases hfree
  mem x hx := by
    rcases List.mem_cons.mp hx with rfl | hx
    · exact hverts v x hnext
    · exact h.mem x hx
  fuel := by
    have := h.fuel
    rw [List.length_cons]
    omega

theorem Entered.circuit (h : Entered succ root verts fuel below v b)
    (hverts : ∀ v, ∀ next ∈ succ v, next ∈ verts) :
    ∃ report, circuit succ root none verts fuel below v b = some report ∧
      Explored succ root none verts fuel below v b report :=
  circuit_spec hverts fuel below v b h.blocks h.free h.nodup h.mem h.fuel (uncut_none _ _ _ _)

-- The loop of a call runs, also if it is stopped before its end.
theorem Entered.scanned (h : Entered succ root verts (fuel + 1) below v b)
    (hverts : ∀ v, ∀ next ∈ succ v, next ∈ verts) {before : List V} (hbefore : before ⊆ succ v) :
    ∃ report, before.foldlM (scan root none (v :: below)
        (Enumeration.circuit succ root none verts fuel (v :: below))) ⟨false, b.mark v true, []⟩ =
          some report ∧
      Scanned succ root none verts fuel below v b before report ∧ Unlisted root report.marks := by
  refine foldlM_spec _ before (fun before report =>
    Scanned succ root none verts fuel below v b before report ∧ Unlisted root report.marks) ?_ _
    ⟨Scanned.start h.blocks, h.unlisted⟩
  intro seen next after report hsplit hs
  obtain ⟨hs, hunlisted⟩ := hs
  have hnext : next ∈ succ v := hbefore (by simp [hsplit])
  obtain ⟨report', hstep, hs'⟩ := hs.step fun hne hfree _ =>
    (h.next hverts hnext hs hunlisted hne hfree).circuit hverts
  exact ⟨report', hstep, hs', scan_unlisted (circuit_unlisted fuel (v :: below)) hstep hunlisted⟩

-- At the end of a call that found a cycle.
theorem Entered.frees {before : List V} (h : Entered succ root verts (fuel + 1) below v b)
    (hs : Scanned succ root none verts fuel below v b before report)
    (hunlisted : Unlisted root report.marks) :
    FreesExactly verts v (v :: below) report.marks := by
  obtain ⟨b', hrun, hdrained⟩ :=
    Blocking.unblock_spec verts v report.marks (h.mem v List.mem_cons_self) hs.blocks.lists
  have htop : report.marks.blocked v = true :=
    hs.keeps.blocked h.blocks.push.free v (Blocking.mark_blocked_self b v true)
  refine ⟨⟨b', hrun, hdrained.freed_iff htop hs.blocks.free⟩, fun x hx hne hfreed => ?_⟩
  have hbelow : x ∈ below := (List.mem_cons.mp hx).resolve_left hne
  by_cases hroot : x = root
  · subst hroot
    cases hfreed with
    | self => exact hne rfl
    | dependent _ hlisted _ => exact hunlisted _ hlisted
  -- what was blocked when the call started is not reached
  have hkept : Shut report.marks {y | b.blocked y = true} := by
    refine (keeps_push v b).trans hs.keeps _ ⟨fun y hy => hy, fun y hy z hz => ?_⟩
    rw [h.blocks.free y (Bool.eq_false_iff.mpr hy)] at hz
    cases hz
  have hout : ∀ {y}, report.marks.Freed v y → y ∉ {y | b.blocked y = true} := by
    intro y hy
    induction hy with
    | self =>
        intro hv
        exact Bool.noConfusion (h.free.symm.trans hv)
    | dependent _ hlisted _ ih => exact hkept.2 _ ih _ hlisted
  exact hout hfreed (h.blocks.path x hbelow hroot)

end Calls

end CycleEnum.Enumeration
