import CycleEnum.Enumeration.Loops
import CycleEnum.Enumeration.Reaches
import Mathlib.Logic.Function.Basic

namespace CycleEnum.Enumeration

variable {V : Type}

variable [DecidableEq V]

-- Depth-first search for a path from `v` to the root, by vertices that are
-- neither visited nor blocked. A path lists its next vertex first and the root
-- last.
def findPathDfs (succ : V → List V) (root : V) (blocked : V → Bool) :
    Nat → V → (V → Bool) → Option (Option (List V) × (V → Bool))
  | 0, _, _ => none
  | fuel + 1, v, visited =>
      firstSuccess (fun next visited =>
        if next = root then some (some [v, root], visited)
        else if visited next || blocked next then some (none, visited)
        else (findPathDfs succ root blocked fuel next visited).map fun (path, visited) =>
          (path.map (v :: ·), visited))
        (succ v) (Function.update visited v true)

-- A failed search blocks every vertex it visited.
def findPath (succ : V → List V) (root : V) (fuel : Nat) (start : V) (blocked : V → Bool) :
    Option (Option (List V) × (V → Bool)) :=
  (findPathDfs succ root blocked fuel start fun _ => false).map fun (path, visited) =>
    (path, if path.isSome then blocked else fun v => visited v || blocked v)

-- A successor that leads nowhere: it lies on the stack, or it cannot get back
-- to the root outside the stack.
def Barren (succ : V → List V) (root : V) (stack : List V) (v : V) : Prop :=
  v ≠ root ∧ (v ∈ stack ∨ ¬Reaches succ root {x | x ∈ stack} v)

-- A path that takes the first successor that leads somewhere at every vertex.
inductive Leads (succ : V → List V) (root : V) : List V → List V → Prop
  | last {below before after : List V} {v : V} (hsplit : succ v = before ++ root :: after)
      (hbefore : ∀ y ∈ before, Barren succ root (v :: below) y) : Leads succ root below [v, root]
  | cons {below before after rest : List V} {v next : V} (hsplit : succ v = before ++ next :: after)
      (hbefore : ∀ y ∈ before, Barren succ root (v :: below) y) (hne : next ≠ root)
      (hnext : next ∉ v :: below) (h : Leads succ root (v :: below) (next :: rest)) :
      Leads succ root below (v :: next :: rest)

variable {succ : V → List V} {root : V}

omit [DecidableEq V] in
theorem Leads.reaches {below path : List V} {v : V} (h : Leads succ root below path)
    (hv : path.head? = some v) : Reaches succ root {x | x ∈ below} v := by
  induction h generalizing v with
  | last hsplit _ =>
      obtain rfl : _ = v := by simpa using hv
      exact .close (by simp [hsplit])
  | @cons below before after rest u next hsplit _ _ hnext _ ih =>
      obtain rfl : u = v := by simpa using hv
      have hr : Reaches succ root {x | x ∈ below} next :=
        (ih rfl).anti fun x hx => List.mem_cons_of_mem u hx
      exact .step (by simp [hsplit]) (fun hm => hnext (List.mem_cons_of_mem u hm)) hr

-- Visited or blocked vertices off the stack only lead to visited or blocked ones.
def Settled (succ : V → List V) (root : V) (below : List V) (visited blocked : V → Bool) : Prop :=
  ∀ x, visited x = true ∨ blocked x = true → x ∉ below →
    root ∉ succ x ∧ ∀ y ∈ succ x, visited y = true ∨ blocked y = true

def Covers (root : V) (below : List V) (visited blocked : V → Bool) : Prop :=
  ∀ x ∈ below, x ≠ root → visited x = true ∨ blocked x = true

omit [DecidableEq V] in
theorem Settled.barren {below : List V} {visited blocked : V → Bool} {x : V}
    (h : Settled succ root below visited blocked) (hne : x ≠ root)
    (hx : visited x = true ∨ blocked x = true) : Barren succ root below x := by
  refine ⟨hne, Classical.or_iff_not_imp_left.mpr fun hs => ?_⟩
  apply not_reaches_of_closed
    {y | (visited y = true ∨ blocked y = true) ∧ y ∉ below} _ ⟨hx, hs⟩
  rintro u ⟨hu, hus⟩
  refine ⟨(h u hu hus).1, fun y hy => ?_⟩
  by_cases hm : y ∈ below
  · exact Or.inr hm
  · exact Or.inl ⟨(h u hu hus).2 y hy, hm⟩

-- What a failed search from `v` leaves behind.
structure Exhausted (succ : V → List V) (root : V) (below : List V) (v : V)
    (visited blocked visited' : V → Bool) : Prop where
  grows : ∀ x, visited x = true → visited' x = true
  self : visited' v = true
  stuck : root ∉ succ v ∧ ∀ y ∈ succ v, visited' y = true ∨ blocked y = true
  settled : Settled succ root below visited' blocked
  root_only : visited' root = true → visited root = true ∨ v = root

def unvisited (verts : List V) (visited : V → Bool) : Nat :=
  verts.countP fun v => !visited v

omit [DecidableEq V] in
theorem unvisited_anti (verts : List V) {visited visited' : V → Bool}
    (h : ∀ x, visited x = true → visited' x = true) :
    unvisited verts visited' ≤ unvisited verts visited := by
  apply List.countP_mono_left
  intro x _ hx
  cases hv : visited x with
  | false => rfl
  | true => simp [h x hv] at hx

theorem update_true_of (visited : V → Bool) (v x : V) (hx : visited x = true) :
    Function.update visited v true x = true := by
  rw [Function.update_apply, hx, ite_self]

theorem unvisited_update_lt (verts : List V) (visited : V → Bool) (v : V) (hv : v ∈ verts)
    (hf : visited v = false) :
    unvisited verts (Function.update visited v true) < unvisited verts visited := by
  obtain ⟨a, b, rfl⟩ := List.append_of_mem hv
  have ha := unvisited_anti a (update_true_of visited v)
  have hb := unvisited_anti b (update_true_of visited v)
  simp only [unvisited, List.countP_append, List.countP_cons] at ha hb ⊢
  simp only [Function.update_self, hf]
  simp
  omega

-- What the loop over the successors of `v` has established after `before`.
structure Tried (succ : V → List V) (root : V) (below : List V) (v : V)
    (visited blocked : V → Bool) (before : List V) (visited' : V → Bool) : Prop where
  grows : ∀ x, Function.update visited v true x = true → visited' x = true
  settled : Settled succ root (v :: below) visited' blocked
  done : ∀ y ∈ before, y ≠ root ∧ (visited' y = true ∨ blocked y = true)
  root_only : visited' root = true → visited root = true ∨ v = root

theorem Tried.start {below : List V} {v : V} {visited blocked : V → Bool}
    (hset : Settled succ root below visited blocked) :
    Tried succ root below v visited blocked [] (Function.update visited v true) where
  grows _ h := h
  settled x hx hs := by
    have hxv : x ≠ v := fun he => hs (by simp [he])
    rw [Function.update_of_ne hxv] at hx
    obtain ⟨hr, hy⟩ := hset x hx fun hm => hs (List.mem_cons_of_mem _ hm)
    exact ⟨hr, fun y hm => (hy y hm).imp (update_true_of _ v y) id⟩
  done y hy := by simp at hy
  root_only h := by
    rw [Function.update_apply] at h
    split_ifs at h with he
    · exact Or.inr he.symm
    · exact Or.inl h

-- A successor that was seen before is passed over.
theorem Tried.skip {below before : List V} {v next : V} {visited blocked visited' : V → Bool}
    (h : Tried succ root below v visited blocked before visited') (hne : next ≠ root)
    (hseen : visited' next = true ∨ blocked next = true) :
    Tried succ root below v visited blocked (before ++ [next]) visited' where
  grows := h.grows
  settled := h.settled
  done y hy := by
    rcases List.mem_append.mp hy with hy | hy
    · exact h.done y hy
    · obtain rfl := List.mem_singleton.mp hy
      exact ⟨hne, hseen⟩
  root_only := h.root_only

-- The search from a successor fails.
theorem Tried.next {below before : List V} {v next : V} {visited blocked state state' : V → Bool}
    (h : Tried succ root below v visited blocked before state) (hne : next ≠ root)
    (hx : Exhausted succ root (v :: below) next state blocked state') :
    Tried succ root below v visited blocked (before ++ [next]) state' where
  grows x hs := hx.grows x (h.grows x hs)
  settled := hx.settled
  done y hy := by
    rcases List.mem_append.mp hy with hy | hy
    · exact (h.done y hy).imp id fun hs => hs.imp (hx.grows y) id
    · obtain rfl := List.mem_singleton.mp hy
      exact ⟨hne, Or.inl hx.self⟩
  root_only hs := h.root_only ((hx.root_only hs).resolve_right hne)

theorem Tried.exhausted {below : List V} {v : V} {visited blocked visited' : V → Bool}
    (h : Tried succ root below v visited blocked (succ v) visited') :
    Exhausted succ root below v visited blocked visited' where
  grows x hx := h.grows x (update_true_of _ v x hx)
  self := h.grows v (by simp)
  stuck := ⟨fun hm => (h.done root hm).1 rfl, fun y hy => (h.done y hy).2⟩
  settled x hx hs := by
    by_cases hxv : x = v
    · subst hxv
      exact ⟨fun hm => (h.done root hm).1 rfl, fun y hy => (h.done y hy).2⟩
    · exact h.settled x hx (by simp [hxv, hs])
  root_only := h.root_only

-- The search from `v` fails only when `v` leads nowhere, and a path it finds
-- takes the first successor that leads somewhere at every vertex.
theorem findPathDfs_spec {verts : List V} (hverts : ∀ v, ∀ next ∈ succ v, next ∈ verts)
    (blocked : V → Bool) (fuel : Nat) (below : List V) (v : V) (visited : V → Bool)
    (hv : v ∈ verts) (hvis : visited v = false) (hroot : root ∈ v :: below)
    (hset : Settled succ root below visited blocked) (hcov : Covers root below visited blocked)
    (hfuel : unvisited verts visited ≤ fuel) :
    ∃ result visited', findPathDfs succ root blocked fuel v visited = some (result, visited') ∧
      (∀ path ∈ result, Leads succ root below path ∧ path.head? = some v) ∧
      (result = none → Exhausted succ root below v visited blocked visited') := by
  induction fuel generalizing below v visited with
  | zero =>
      have := unvisited_update_lt verts visited v hv hvis
      omega
  | succ fuel ih =>
      obtain ⟨result, visited', he, hgoal, hnone⟩ := firstSuccess_spec
        (fun next visited =>
          if next = root then some (some [v, root], visited)
          else if visited next || blocked next then some (none, visited)
          else (findPathDfs succ root blocked fuel next visited).map fun (path, visited) =>
            (path.map (v :: ·), visited))
        (succ v) (Tried succ root below v visited blocked)
        (fun path _ => Leads succ root below path ∧ path.head? = some v)
        (by
          intro before next after state hsplit h
          have hbefore : ∀ y ∈ before, Barren succ root (v :: below) y :=
            fun y hy => h.settled.barren (h.done y hy).1 (h.done y hy).2
          by_cases hne : next = root
          · subst hne
            exact ⟨some [v, next], state, by simp, by simpa using Leads.last hsplit hbefore, by simp⟩
          by_cases hseen : (state next || blocked next) = true
          · exact ⟨none, state, by simp [hne, hseen], by simp,
              fun _ => h.skip hne (by simpa using hseen)⟩
          · obtain ⟨hvn, hbn⟩ : state next = false ∧ blocked next = false := by simpa using hseen
            have hcov' : Covers root (v :: below) state blocked := by
              intro x hx hxr
              rcases List.mem_cons.mp hx with rfl | hx
              · exact Or.inl (h.grows x (by simp))
              · exact (hcov x hx hxr).imp (fun hs => h.grows x (update_true_of _ v x hs)) id
            have hmem : next ∉ v :: below := fun hm => by
              simpa [hvn, hbn] using hcov' next hm hne
            have hle := unvisited_anti verts h.grows
            have hlt := unvisited_update_lt verts visited v hv hvis
            obtain ⟨r, s, hr, hg, hn⟩ := ih (v :: below) next state
              (hverts v next (by simp [hsplit])) hvn (List.mem_cons_of_mem _ hroot) h.settled hcov'
              (by omega)
            refine ⟨r.map (v :: ·), s, by simp [hne, hvn, hbn, hr], ?_, ?_⟩
            · intro path hp
              obtain ⟨p, hrp, rfl⟩ := Option.map_eq_some_iff.mp hp
              obtain ⟨hl, hh⟩ := hg p hrp
              obtain ⟨rest, rfl⟩ := List.head?_eq_some_iff.mp hh
              exact ⟨Leads.cons hsplit hbefore hne hmem hl, rfl⟩
            · exact fun hmap => h.next hne (hn (Option.map_eq_none_iff.mp hmap)))
        (Function.update visited v true) (Tried.start hset)
      exact ⟨result, visited', he, hgoal, fun hr => (hnone hr).exhausted⟩

-- The blocked set of a stack: all of the stack but the root, and vertices that
-- only lead to blocked ones.
structure Marks (succ : V → List V) (root : V) (stack : List V) (blocked : V → Bool) : Prop where
  path : ∀ x ∈ stack, x ≠ root → blocked x = true
  dead : ∀ x, blocked x = true → x ∉ stack ∨ x = root →
    root ∉ succ x ∧ ∀ y ∈ succ x, blocked y = true

omit [DecidableEq V] in
theorem Marks.not_reaches {stack : List V} {blocked : V → Bool}
    (h : Marks succ root stack blocked) {x : V} (hx : blocked x = true)
    (hs : x ∉ stack ∨ x = root) : ¬Reaches succ root {y | y ∈ stack} x := by
  apply not_reaches_of_closed
    {y | blocked y = true ∧ (y ∉ stack ∨ y = root)} _ ⟨hx, hs⟩
  rintro u ⟨hu, hus⟩
  refine ⟨(h.dead u hu hus).1, fun y hy => ?_⟩
  by_cases hm : y ∈ stack
  · exact Or.inr hm
  · exact Or.inl ⟨(h.dead u hu hus).2 y hy, Or.inl hm⟩

theorem Marks.push {stack : List V} {blocked : V → Bool} (h : Marks succ root stack blocked)
    (v : V) (hv : v ≠ root) : Marks succ root (v :: stack) (Function.update blocked v true) where
  path x hx hne := by
    rcases List.mem_cons.mp hx with rfl | hx
    · simp
    · exact update_true_of _ v x (h.path x hx hne)
  dead x hx hs := by
    have hxv : x ≠ v := by
      rintro rfl
      rcases hs with hs | hs
      · exact hs (by simp)
      · exact hv hs
    rw [Function.update_of_ne hxv] at hx
    obtain ⟨hr, hy⟩ := h.dead x hx (hs.imp (fun hs hm => hs (List.mem_cons_of_mem _ hm)) id)
    exact ⟨hr, fun y hm => update_true_of _ v y (hy y hm)⟩

-- A search from an unblocked successor succeeds exactly when it can reach the
-- root outside the stack, and a failure keeps the marks.
theorem findPath_spec {verts : List V} (hverts : ∀ v, ∀ next ∈ succ v, next ∈ verts)
    {stack : List V} {blocked : V → Bool} (h : Marks succ root stack blocked)
    (hroot : root ∈ stack) (start : V) (hv : start ∈ verts) (hstart : blocked start = false) :
    ∃ result blocked', findPath succ root verts.length start blocked = some (result, blocked') ∧
      (∀ path ∈ result, blocked' = blocked ∧ Leads succ root stack path ∧
        path.head? = some start ∧ Reaches succ root {x | x ∈ stack} start) ∧
      (result = none → Marks succ root stack blocked' ∧ blocked' start = true ∧
        ¬Reaches succ root {x | x ∈ stack} start ∧
        (∀ x, blocked x = true → blocked' x = true) ∧
        (blocked' root = true → blocked root = true ∨ start = root)) := by
  have hoff : start ∉ stack ∨ start = root := by
    by_cases hm : start ∈ stack
    · by_contra hn
      simp [h.path start hm (not_or.mp hn).2] at hstart
    · exact Or.inl hm
  obtain ⟨result, visited', he, hgoal, hnone⟩ := findPathDfs_spec hverts blocked verts.length stack
    start (fun _ => false) hv rfl (List.mem_cons_of_mem _ hroot)
    (fun x hx hs => by
      obtain ⟨hr, hy⟩ := h.dead x (by simpa using hx) (Or.inl hs)
      exact ⟨hr, fun y hm => Or.inr (hy y hm)⟩)
    (fun x hx hne => Or.inr (h.path x hx hne))
    (List.countP_le_length)
  cases result with
  | some path =>
      obtain ⟨hl, hh⟩ := hgoal path rfl
      exact ⟨some path, blocked, by simp [findPath, he],
        by simpa using ⟨hl, hh, hl.reaches hh⟩, by simp⟩
  | none =>
      have hx := hnone rfl
      have hm : Marks succ root stack fun v => visited' v || blocked v := by
        refine ⟨fun x hx hne => by simp [h.path x hx hne], fun x hxb hs => ?_⟩
        have hxb : visited' x = true ∨ blocked x = true := by simpa using hxb
        rcases Classical.em (x ∈ stack) with hxs | hxs
        · obtain rfl := hs.resolve_left (not_not.mpr hxs)
          rcases hxb with hxb | hxb
          · obtain rfl : start = x := (hx.root_only hxb).resolve_left (by simp)
            exact ⟨hx.stuck.1, fun y hy => by simpa using hx.stuck.2 y hy⟩
          · exact ⟨(h.dead x hxb hs).1, fun y hy => by simp [(h.dead x hxb hs).2 y hy]⟩
        · obtain ⟨hr, hy⟩ := hx.settled x hxb hxs
          exact ⟨hr, fun y hm => by simpa using hy y hm⟩
      refine ⟨none, fun v => visited' v || blocked v, by simp [findPath, he], by simp, fun _ => ?_⟩
      refine ⟨hm, by simp [hx.self], hm.not_reaches (by simp [hx.self]) hoff,
        fun x hb => by simp [hb], fun hb => ?_⟩
      rcases Bool.or_eq_true _ _ ▸ hb with hb | hb
      · exact Or.inr ((hx.root_only hb).resolve_left (by simp))
      · exact Or.inl hb

end CycleEnum.Enumeration
