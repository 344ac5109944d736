import CycleEnum.Enumeration.FindPath

namespace CycleEnum.Enumeration

variable {V : Type} [DecidableEq V]

-- The state after following a path up to the first vertex with an alternate.
structure Fork (V : Type) where
  vertex : V
  stack : List V
  blocked : V → Bool
  path : List V
  alternate : Option (List V)

-- Looks for a path from a successor of `v` other than the next path vertex.
-- With `skipRoot` the root is not tried.
def findAlternate (succ : V → List V) (root : V) (skipRoot : Bool) (depth : Nat) (v : V)
    (ahead : Option V) (blocked : V → Bool) : Option (Option (List V) × (V → Bool)) :=
  firstSuccess (fun next blocked =>
    if ahead = some next then some (none, blocked)
    else if skipRoot && next = root then some (none, blocked)
    else if blocked next then some (none, blocked)
    else findPath succ root depth next blocked) (succ v) blocked

def advance (succ : V → List V) (root : V) (skipRoot : Bool) (depth : Nat) :
    List V → V → List V → (V → Bool) → Option (Fork V)
  | [], _, _, _ => none
  | v :: path, vertex, stack, blocked =>
      if v = root then some ⟨vertex, stack, blocked, v :: path, none⟩
      else
        (findAlternate succ root skipRoot depth v path.head?
          (Function.update blocked v true)).bind fun (alternate, blocked) =>
          match alternate with
          | some alternate => some ⟨v, v :: stack, blocked, path, some alternate⟩
          | none => advance succ root skipRoot depth path v (v :: stack) blocked

-- The paths not used yet and the closings found so far.
structure Turn (V : Type) where
  main : Option (List V)
  alternate : Option (List V)
  closed : List (List V)

def turn (succ : V → List V) (root : V) (depth : Nat) (blocked : V → Bool)
    (follow : List V → Option (List (List V))) (t : Turn V) (next : V) : Option (Turn V) :=
  if blocked next then some t
  else if t.main.bind List.head? = some next then
    (follow (t.main.getD [])).map fun closed => ⟨none, t.alternate, t.closed ++ closed⟩
  else if t.alternate.bind List.head? = some next then
    (follow (t.alternate.getD [])).map fun closed => ⟨t.main, none, t.closed ++ closed⟩
  else
    (findPath succ root depth next blocked).bind fun (path, _) =>
      match path with
      | none => some t
      | some path => (follow path).map fun closed => { t with closed := t.closed ++ closed }

mutual

-- Branches at `v`: every successor is followed along the main path, the
-- alternate or a path found for it.
def cycles (succ : V → List V) (root : V) (skipRoot : Bool) (depth : Nat) :
    Nat → V → List V → (V → Bool) → Option (List V) → Option (List V) → Option (List (List V))
  | 0, _, _, _, _, _ => none
  | fuel + 1, v, stack, blocked, main, alternate =>
      ((succ v).foldlM (turn succ root depth blocked fun path =>
        follow succ root skipRoot depth fuel v path stack blocked)
        ⟨main, alternate, []⟩).map Turn.closed

def follow (succ : V → List V) (root : V) (skipRoot : Bool) (depth : Nat) :
    Nat → V → List V → List V → (V → Bool) → Option (List (List V))
  | 0, _, _, _, _ => none
  | fuel + 1, v, path, stack, blocked =>
      (advance succ root skipRoot depth path v stack blocked).bind fun fork =>
        match fork.alternate with
        | none => some [fork.stack]
        | some alternate =>
            cycles succ root skipRoot depth fuel fork.vertex fork.stack fork.blocked
              (some fork.path) (some alternate)

end

-- The direct way back to the root is missed on a stack whose top has an earlier
-- successor that leads to the root, when the root itself cannot be left and
-- reached again outside the stack.
def Missed (succ : V → List V) (root : V) (stack : List V) : Prop :=
  ∃ v below before after p, stack = v :: below ∧ succ v = before ++ root :: after ∧
    p ∈ before ∧ p ∉ stack ∧ Reaches succ root {x | x ∈ stack} p ∧
    ¬Reaches succ root {x | x ∈ stack} root

def Clean (succ : V → List V) (root : V) (stack : List V) : Prop :=
  ∀ part, part <:+ stack → ¬Missed succ root part

-- `out` lists closings of `all` in order: at least the clean ones, and no
-- missed one.
open Classical in
def Between (succ : V → List V) (root : V) (all out : List (List V)) : Prop :=
  (all.filter (Clean succ root)).Sublist out ∧ out.Sublist (all.filter (¬Missed succ root ·))

variable {succ : V → List V} {root : V} {skipRoot : Bool} {verts : List V}

omit [DecidableEq V] in
theorem Clean.not_missed {stack : List V} (h : Clean succ root stack) : ¬Missed succ root stack :=
  h stack (List.suffix_refl _)

omit [DecidableEq V] in
theorem between_nil : Between succ root [] [] := ⟨List.Sublist.refl _, List.Sublist.refl _⟩

omit [DecidableEq V] in
theorem between_self {stack : List V} (h : ¬Missed succ root stack) :
    Between succ root [stack] [stack] := by
  classical
  exact ⟨List.filter_sublist, by simp [h]⟩

omit [DecidableEq V] in
theorem between_unclean {stack : List V} (h : ¬Clean succ root stack) :
    Between succ root [stack] [] := by
  classical
  exact ⟨by simp [h], List.nil_sublist _⟩

omit [DecidableEq V] in
theorem Between.append {a b x y : List (List V)} (h₁ : Between succ root a x)
    (h₂ : Between succ root b y) : Between succ root (a ++ b) (x ++ y) := by
  unfold Between
  rw [List.filter_append, List.filter_append]
  exact ⟨h₁.1.append h₂.1, h₁.2.append h₂.2⟩

omit [DecidableEq V] in
theorem between_flatMap_nil {piece : V → List (List V)} (row : List V)
    (h : ∀ y ∈ row, Between succ root (piece y) []) : Between succ root (row.flatMap piece) [] := by
  induction row with
  | nil => exact between_nil
  | cons y row ih =>
      rw [List.flatMap_cons]
      exact (h y (by simp)).append (ih fun z hz => h z (List.mem_cons_of_mem _ hz))

-- Only one successor contributes.
omit [DecidableEq V] in
theorem between_flatMap_only {piece : V → List (List V)} {row before after : List V} {v : V}
    {out : List (List V)} (hsplit : row = before ++ v :: after)
    (hrest : ∀ y ∈ before ++ after, Between succ root (piece y) [])
    (h : Between succ root (piece v) out) : Between succ root (row.flatMap piece) out := by
  rw [hsplit, List.flatMap_append, List.flatMap_cons]
  have hb := between_flatMap_nil before fun y hy => hrest y (List.mem_append_left _ hy)
  have ha := between_flatMap_nil after fun y hy => hrest y (List.mem_append_right _ hy)
  simpa using hb.append (h.append ha)

-- All closings of a stack over the vertices `verts`.
def every (succ : V → List V) (root : V) (verts stack : List V) : List (List V) :=
  closings succ root none verts.length stack

def piece (succ : V → List V) (root : V) (verts stack : List V) (next : V) : List (List V) :=
  branch root none stack (fun next => every succ root verts (next :: stack)) next

theorem every_cons (hverts : ∀ v, ∀ next ∈ succ v, next ∈ verts) (v : V) (below : List V)
    (hn : (v :: below).Nodup) (hs : ∀ x ∈ v :: below, x ∈ verts) :
    every succ root verts (v :: below) = (succ v).flatMap (piece succ root verts (v :: below)) := by
  obtain ⟨k, hk⟩ : ∃ k, verts.length = k + 1 :=
    ⟨verts.length - 1, by have := List.length_pos_of_mem (hs v (by simp)); omega⟩
  unfold every
  rw [hk]
  simp only [closings]
  refine List.flatMap_congr fun next hnext => ?_
  unfold piece branch
  split_ifs with hr hmem hcut
  · rfl
  · rfl
  · rfl
  · apply (closings_fuel_eq verts hverts k verts.length _ (List.nodup_cons.mpr ⟨hmem, hn⟩) _ _ _).symm
    · intro x hx
      rcases List.mem_cons.mp hx with rfl | hx
      · exact hverts v _ hnext
      · exact hs x hx
    · simp only [List.length_cons]; omega
    · omega

theorem piece_of_notMem {stack : List V} {next : V} (hne : next ≠ root) (hm : next ∉ stack) :
    piece succ root verts stack next = every succ root verts (next :: stack) := by
  rw [piece, branch_enter hne hm (cut_none _)]

-- The search state at a stack. A blocked root means that the direct way back was
-- missed at some earlier vertex of the stack.
structure Tracked (succ : V → List V) (root : V) (verts stack : List V) (blocked : V → Bool) :
    Prop where
  marks : Marks succ root stack blocked
  root_blocked : blocked root = true → ¬Clean succ root stack
  nodup : stack.Nodup
  mem_verts : ∀ x ∈ stack, x ∈ verts
  root_mem : root ∈ stack

-- A path that can be followed from a stack.
def Ready (succ : V → List V) (root : V) (verts stack path : List V) : Prop :=
  (∃ rest, path = root :: rest ∧ ¬Missed succ root stack) ∨
  ∃ v rest, path = v :: rest ∧ v ≠ root ∧ v ∉ stack ∧ v ∈ verts ∧ Leads succ root stack path

theorem Tracked.push {stack : List V} {blocked : V → Bool}
    (h : Tracked succ root verts stack blocked) {v : V} (hne : v ≠ root) (hm : v ∉ stack)
    (hv : v ∈ verts) : Tracked succ root verts (v :: stack) (Function.update blocked v true) where
  marks := h.marks.push v hne
  root_blocked hb hc := by
    rw [Function.update_of_ne hne.symm] at hb
    exact h.root_blocked hb fun part hp => hc part (hp.trans (List.suffix_cons v stack))
  nodup := List.nodup_cons.mpr ⟨hm, h.nodup⟩
  mem_verts x hx := by
    rcases List.mem_cons.mp hx with rfl | hx
    · exact hv
    · exact h.mem_verts x hx
  root_mem := List.mem_cons_of_mem _ h.root_mem

-- A path that is found for an unblocked successor can be followed.
omit [DecidableEq V] in
theorem Tracked.ready {stack : List V} {blocked : V → Bool}
    (h : Tracked succ root verts stack blocked) {next : V} {path : List V} (hv : next ∈ verts)
    (hb : blocked next = false) (hlead : Leads succ root stack path)
    (hhead : path.head? = some next) (hreach : Reaches succ root {x | x ∈ stack} next) :
    Ready succ root verts stack path := by
  obtain ⟨rest, rfl⟩ := List.head?_eq_some_iff.mp hhead
  by_cases hne : next = root
  · subst hne
    exact Or.inl ⟨rest, rfl, fun ⟨_, _, _, _, _, _, _, _, _, _, hno⟩ => hno hreach⟩
  · refine Or.inr ⟨next, rest, rfl, hne, fun hm => ?_, hv, hlead⟩
    simp [h.marks.path next hm hne] at hb

-- A successor without a way back to the root adds no closing that is not missed.
theorem between_piece_of_not_reaches {stack : List V} {next : V}
    (hroot : next = root → ¬Clean succ root stack)
    (hno : next ∉ stack → ¬Reaches succ root {x | x ∈ stack} next) :
    Between succ root (piece succ root verts stack next) [] := by
  unfold piece branch
  split_ifs with hr hm hc
  · exact between_unclean (hroot hr)
  · exact between_nil
  · exact between_nil
  · have hnil : every succ root verts (next :: stack) = [] :=
      closings_eq_nil_of_not_reaches _ _ _ (hno hm)
    simpa only [hnil] using between_nil

theorem Tracked.between_piece {stack : List V} {blocked : V → Bool}
    (h : Tracked succ root verts stack blocked) {next : V} (hb : blocked next = true) :
    Between succ root (piece succ root verts stack next) [] :=
  between_piece_of_not_reaches (fun hr => h.root_blocked (hr ▸ hb))
    fun hm => h.marks.not_reaches hb (Or.inl hm)

-- Only one successor is not blocked.
theorem Tracked.between_only {below before after : List V} {v ahead : V} {blocked : V → Bool}
    (h : Tracked succ root verts (v :: below) blocked) (hrow : (succ v).Nodup)
    (hsplit : succ v = before ++ ahead :: after)
    (hblocked : ∀ y ∈ succ v, y = ahead ∨ blocked y = true) {out : List (List V)}
    (hout : Between succ root (piece succ root verts (v :: below) ahead) out) :
    Between succ root ((succ v).flatMap (piece succ root verts (v :: below))) out := by
  apply between_flatMap_only hsplit _ hout
  intro y hy
  rw [hsplit, List.nodup_middle, List.nodup_cons] at hrow
  have hm : y ∈ succ v := by
    rw [hsplit]
    rcases List.mem_append.mp hy with hy | hy
    · exact List.mem_append_left _ hy
    · exact List.mem_append_right _ (List.mem_cons_of_mem _ hy)
  exact h.between_piece ((hblocked y hm).resolve_left (ne_of_mem_of_not_mem hy hrow.1))

omit [DecidableEq V] in
theorem Leads.step {below path : List V} {v : V} (h : Leads succ root below (v :: path)) :
    ∃ next rest before after, path = next :: rest ∧ succ v = before ++ next :: after ∧
      (∀ y ∈ before, Barren succ root (v :: below) y) ∧
      (next = root ∧ rest = [] ∨
        next ≠ root ∧ next ∉ v :: below ∧ Leads succ root (v :: below) (next :: rest)) := by
  cases h with
  | last hsplit hbefore => exact ⟨root, [], _, _, rfl, hsplit, hbefore, Or.inl ⟨rfl, rfl⟩⟩
  | cons hsplit hbefore hne hnext h =>
      exact ⟨_, _, _, _, rfl, hsplit, hbefore, Or.inr ⟨hne, hnext, h⟩⟩

omit [DecidableEq V] in
theorem not_missed_of_first {below before after : List V} {v : V} (hrow : (succ v).Nodup)
    (hsplit : succ v = before ++ root :: after)
    (hbefore : ∀ y ∈ before, Barren succ root (v :: below) y) :
    ¬Missed succ root (v :: below) := by
  rintro ⟨u, below', before', after', p, he, hsplit', hp, hps, hr, -⟩
  obtain ⟨rfl, rfl⟩ := List.cons.inj he
  have hb : p ∈ before := by
    rw [hsplit] at hrow hsplit'
    rcases List.append_eq_append_iff.mp hsplit' with ⟨mid, hmid, hcons⟩ | ⟨mid, hmid, hcons⟩
    · cases mid with
      | nil => simpa [hmid] using hp
      | cons x mid =>
          obtain ⟨rfl, rfl⟩ := List.cons.inj hcons
          simp [List.nodup_append, List.nodup_cons] at hrow
    · rw [hmid]; exact List.mem_append_left _ hp
  rcases (hbefore p hb).2 with hm | hn
  · exact hps hm
  · exact hn hr

omit [DecidableEq V] in
theorem missed_of_later {below before after : List V} {v next : V}
    (hsplit : succ v = before ++ next :: after)
    (hbefore : ∀ y ∈ before, Barren succ root (v :: below) y) (hne : next ≠ root)
    (hnext : next ∉ v :: below) (hreach : Reaches succ root {x | x ∈ v :: below} next)
    (hroot : root ∈ succ v) (hno : ¬Reaches succ root {x | x ∈ v :: below} root) :
    Missed succ root (v :: below) := by
  rw [hsplit] at hroot
  have hafter : root ∈ after := by
    rcases List.mem_append.mp hroot with hm | hm
    · exact absurd rfl (hbefore root hm).1
    · exact (List.mem_cons.mp hm).resolve_left hne.symm
  obtain ⟨a, b, rfl⟩ := List.append_of_mem hafter
  exact ⟨v, below, before ++ next :: a, b, next, rfl, by simp [hsplit], by simp, hnext, hreach, hno⟩

-- The search for an alternate either finds a path to follow, or leaves every
-- other successor blocked.
theorem findAlternate_spec (hverts : ∀ v, ∀ next ∈ succ v, next ∈ verts)
    (hskip : skipRoot = true → ∀ v, root ∈ succ v → (succ v).head? = some root)
    {below before after : List V} {v ahead : V} {blocked : V → Bool}
    (h : Tracked succ root verts (v :: below) blocked)
    (hsplit : succ v = before ++ ahead :: after)
    (hbefore : ∀ y ∈ before, Barren succ root (v :: below) y)
    (hmiss : root ∈ succ v → ahead ≠ root → ¬Reaches succ root {x | x ∈ v :: below} root →
      Missed succ root (v :: below)) :
    ∃ result blocked',
      findAlternate succ root skipRoot verts.length v (some ahead) blocked = some (result, blocked') ∧
      (∀ path ∈ result, Tracked succ root verts (v :: below) blocked' ∧
        Ready succ root verts (v :: below) path) ∧
      (result = none → Tracked succ root verts (v :: below) blocked' ∧
        ∀ y ∈ succ v, y = ahead ∨ blocked' y = true) := by
  apply firstSuccess_spec _ (succ v)
    (fun before blocked => Tracked succ root verts (v :: below) blocked ∧
      ∀ y ∈ before, y = ahead ∨ blocked y = true)
    (fun path blocked => Tracked succ root verts (v :: below) blocked ∧
      Ready succ root verts (v :: below) path)
  · rintro part next rest state hpart ⟨ht, hdone⟩
    have hskipped : (next = ahead ∨ state next = true) →
        ∀ y ∈ part ++ [next], y = ahead ∨ state y = true := by
      intro hs y hy
      rcases List.mem_append.mp hy with hy | hy
      · exact hdone y hy
      · exact List.mem_singleton.mp hy ▸ hs
    have hnext : next ∈ succ v := by simp [hpart]
    by_cases ha : ahead = next
    · exact ⟨none, state, by simp [ha], by simp, fun _ => ⟨ht, hskipped (Or.inl ha.symm)⟩⟩
    by_cases hr : (skipRoot && next = root) = true
    · -- the root comes first among the successors, so the path goes straight to it
      obtain ⟨hsk, rfl⟩ : skipRoot = true ∧ next = root := by simpa using hr
      have hhead := hskip hsk v hnext
      rw [hsplit] at hhead
      cases before with
      | nil => exact absurd (by simpa using hhead) ha
      | cons y before =>
          obtain rfl : y = next := by simpa using hhead
          exact absurd rfl (hbefore y (by simp)).1
    cases hb : state next with
    | true =>
        exact ⟨none, state, by simp [ha], by simp, fun _ => ⟨ht, hskipped (Or.inr hb)⟩⟩
    | false =>
        obtain ⟨result, blocked', he, hsome, hnone⟩ :=
          findPath_spec hverts ht.marks ht.root_mem next (hverts v next hnext) hb
        refine ⟨result, blocked', by simp [ha, hr, he], ?_, ?_⟩
        · intro path hp
          obtain ⟨rfl, hlead, hhead, hreach⟩ := hsome path hp
          exact ⟨ht, ht.ready (hverts v next hnext) hb hlead hhead hreach⟩
        · intro hn
          obtain ⟨hm, hbn, hno, hgrow, hroot⟩ := hnone hn
          refine ⟨⟨hm, fun hbr => ?_, ht.nodup, ht.mem_verts, ht.root_mem⟩, ?_⟩
          · rcases hroot hbr with hbr | rfl
            · exact ht.root_blocked hbr
            · exact fun hc => hc.not_missed (hmiss hnext ha hno)
          · intro y hy
            rcases List.mem_append.mp hy with hy | hy
            · exact (hdone y hy).imp id (hgrow y)
            · obtain rfl := List.mem_singleton.mp hy
              exact Or.inr hbn
  · exact ⟨h, by simp⟩

-- What following a path from `stack` to its first fork means for the closings
-- that start with its first vertex.
structure Forked (succ : V → List V) (root : V) (verts stack : List V) (v : V)
    (fork : Fork V) : Prop where
  done : fork.alternate = none →
    Between succ root (piece succ root verts stack v) [fork.stack]
  tracked : fork.alternate.isSome → Tracked succ root verts fork.stack fork.blocked
  grown : fork.alternate.isSome → stack.length < fork.stack.length
  top : fork.alternate.isSome → ∃ below, fork.stack = fork.vertex :: below
  main : fork.alternate.isSome → Ready succ root verts fork.stack fork.path
  alternate : ∀ path ∈ fork.alternate, Ready succ root verts fork.stack path
  direct : fork.alternate.isSome → root ∈ succ fork.vertex → fork.path.head? ≠ some root →
    ¬Reaches succ root {x | x ∈ fork.stack} root → Missed succ root fork.stack
  branch : fork.alternate.isSome → ∀ out, Between succ root (every succ root verts fork.stack) out →
    Between succ root (piece succ root verts stack v) out

-- A fork of a longer stack, where the longer stack carries all closings.
theorem Forked.of_push {stack : List V} {v ahead : V} {fork : Fork V}
    (h : Forked succ root verts (v :: stack) ahead fork)
    (honly : ∀ out, Between succ root (piece succ root verts (v :: stack) ahead) out →
      Between succ root (piece succ root verts stack v) out) :
    Forked succ root verts stack v fork where
  done hn := honly _ (h.done hn)
  tracked := h.tracked
  grown hs := (Nat.lt_succ_self _).trans (h.grown hs)
  top := h.top
  main := h.main
  alternate := h.alternate
  direct := h.direct
  branch hs out hout := honly _ (h.branch hs out hout)

theorem advance_spec (hverts : ∀ v, ∀ next ∈ succ v, next ∈ verts) (hrow : ∀ v, (succ v).Nodup)
    (hskip : skipRoot = true → ∀ v, root ∈ succ v → (succ v).head? = some root)
    (path : List V) (v vertex : V) (stack : List V) (blocked : V → Bool)
    (h : Tracked succ root verts stack blocked) (hne : v ≠ root) (hm : v ∉ stack) (hv : v ∈ verts)
    (hlead : Leads succ root stack (v :: path)) :
    ∃ fork, advance succ root skipRoot verts.length (v :: path) vertex stack blocked = some fork ∧
      Forked succ root verts stack v fork := by
  induction path generalizing v vertex stack blocked with
  | nil => obtain ⟨_, _, _, _, he, _⟩ := hlead.step; cases he
  | cons ahead path ih =>
      obtain ⟨next, rest, before, after, he, hsplit, hbefore, hcase⟩ := hlead.step
      obtain ⟨rfl, rfl⟩ := List.cons.inj he
      have hpush := h.push hne hm hv
      have hpiece : piece succ root verts stack v =
          (succ v).flatMap (piece succ root verts (v :: stack)) := by
        rw [piece_of_notMem hne hm, every_cons hverts v stack hpush.nodup hpush.mem_verts]
      have hmiss : root ∈ succ v → ahead ≠ root →
          ¬Reaches succ root {x | x ∈ v :: stack} root → Missed succ root (v :: stack) := by
        intro hr hna hno
        obtain ⟨-, hnext, hl⟩ := hcase.resolve_left fun hc => hna hc.1
        exact missed_of_later hsplit hbefore hna hnext (hl.reaches rfl) hr hno
      have hready : Ready succ root verts (v :: stack) (ahead :: path) := by
        rcases hcase with ⟨rfl, rfl⟩ | ⟨hna, hnext, hl⟩
        · exact Or.inl ⟨[], rfl, not_missed_of_first (hrow v) hsplit hbefore⟩
        · exact Or.inr ⟨ahead, path, rfl, hna, hnext, hverts v ahead (by simp [hsplit]), hl⟩
      obtain ⟨result, blocked', hfind, hsome, hnone⟩ :=
        findAlternate_spec hverts hskip hpush hsplit hbefore hmiss
      cases result with
      | some alternate =>
          obtain ⟨ht, ha⟩ := hsome alternate rfl
          refine ⟨⟨v, v :: stack, blocked', ahead :: path, some alternate⟩,
            by simp [advance, hne, hfind], ?_⟩
          refine ⟨by simp, fun _ => ht, fun _ => by simp, fun _ => ⟨stack, rfl⟩, fun _ => hready, ?_,
            fun _ hr hh hno => hmiss hr (by simpa using hh) hno, fun _ out hout => ?_⟩
          · rintro p hp
            obtain rfl : alternate = p := by simpa using hp
            exact ha
          · rw [hpiece, ← every_cons hverts v stack hpush.nodup hpush.mem_verts]
            exact hout
      | none =>
          obtain ⟨ht, hblocked⟩ := hnone rfl
          have hadv : advance succ root skipRoot verts.length (v :: ahead :: path) vertex stack
              blocked = advance succ root skipRoot verts.length (ahead :: path) v (v :: stack)
                blocked' := by
            rw [advance, if_neg hne]
            simp [hfind]
          have honly : ∀ out, Between succ root (piece succ root verts (v :: stack) ahead) out →
              Between succ root (piece succ root verts stack v) out := fun out hout => by
            rw [hpiece]
            exact ht.between_only (hrow v) hsplit hblocked hout
          rcases hcase with ⟨rfl, rfl⟩ | ⟨hna, hnext, hl⟩
          · refine ⟨⟨v, v :: stack, blocked', [ahead], none⟩, by rw [hadv]; simp [advance], ?_⟩
            refine ⟨fun _ => honly _ ?_, by simp, by simp, by simp, by simp, by simp, by simp, by simp⟩
            rw [piece, branch_root rfl]
            exact between_self (not_missed_of_first (hrow v) hsplit hbefore)
          · obtain ⟨fork, hf, hfk⟩ := ih ahead v (v :: stack) blocked' ht hna hnext
              (hverts v ahead (by simp [hsplit])) hl
            exact ⟨fork, by rw [hadv]; exact hf, hfk.of_push honly⟩

-- What the loop over the successors of a branching vertex keeps, after `before`.
structure Turned (succ : V → List V) (root : V) (verts stack : List V)
    (main alternate : Option (List V)) (before : List V) (t : Turn V) : Prop where
  main : t.main = main ∨ t.main = none ∧ ∃ x ∈ before, main.bind List.head? = some x
  alternate : t.alternate = alternate ∨ t.alternate = none
  closed : Between succ root (before.flatMap (piece succ root verts stack)) t.closed

theorem Turned.next {stack before : List V} {main alternate : Option (List V)} {t : Turn V}
    {next : V} (h : Turned succ root verts stack main alternate before t)
    {main' alternate' : Option (List V)} {closed : List (List V)}
    (hmain : main' = t.main ∨ main' = none ∧ t.main.bind List.head? = some next)
    (halt : alternate' = t.alternate ∨ alternate' = none)
    (hclosed : Between succ root (piece succ root verts stack next) closed) :
    Turned succ root verts stack main alternate (before ++ [next])
      ⟨main', alternate', t.closed ++ closed⟩ where
  main := by
    rcases hmain with rfl | ⟨rfl, hh⟩
    · exact h.main.imp id fun ⟨hn, x, hx, he⟩ => ⟨hn, x, List.mem_append_left _ hx, he⟩
    · rcases h.main with he | ⟨he, -⟩
      · exact Or.inr ⟨rfl, next, by simp, he ▸ hh⟩
      · simp [he] at hh
  alternate := by
    rcases halt with rfl | rfl
    · exact h.alternate
    · exact Or.inr rfl
  closed := by
    rw [List.flatMap_append, List.flatMap_singleton]
    exact h.closed.append hclosed

section Step

variable {v : V} {below : List V} {blocked : V → Bool}

-- One turn of the loop at `v`, if following a path works.
theorem turn_spec (hverts : ∀ v, ∀ next ∈ succ v, next ∈ verts)
    {main alternate : Option (List V)} {follow : List V → Option (List (List V))}
    (h : Tracked succ root verts (v :: below) blocked)
    (hmain : ∀ path ∈ main, Ready succ root verts (v :: below) path)
    (halt : ∀ path ∈ alternate, Ready succ root verts (v :: below) path)
    (hdirect : root ∈ succ v → main.bind List.head? ≠ some root →
      ¬Reaches succ root {x | x ∈ v :: below} root → Missed succ root (v :: below))
    (hfollow : ∀ path, Ready succ root verts (v :: below) path → ∃ out, follow path = some out ∧
      ∀ next, path.head? = some next →
        Between succ root (piece succ root verts (v :: below) next) out)
    {before : List V} {next : V} {t : Turn V} (hnext : next ∈ succ v) (hnew : next ∉ before)
    (ht : Turned succ root verts (v :: below) main alternate before t) :
    ∃ t', turn succ root verts.length blocked follow t next = some t' ∧
      Turned succ root verts (v :: below) main alternate (before ++ [next]) t' := by
  cases hb : blocked next with
  | true =>
      refine ⟨t, by simp [turn, hb], ?_⟩
      simpa using ht.next (Or.inl rfl) (Or.inl rfl) (h.between_piece hb)
  | false =>
      by_cases hm : t.main.bind List.head? = some next
      · obtain ⟨path, hp, hh⟩ := Option.bind_eq_some_iff.mp hm
        have hready := hmain path (by
          rcases ht.main with he | ⟨he, -⟩
          · exact he ▸ hp
          · simp [he] at hp)
        obtain ⟨out, he, hout⟩ := hfollow path hready
        refine ⟨⟨none, t.alternate, t.closed ++ out⟩, by simp [turn, hb, hp, hh, he], ?_⟩
        exact ht.next (Or.inr ⟨rfl, hm⟩) (Or.inl rfl) (hout next hh)
      by_cases ha : t.alternate.bind List.head? = some next
      · obtain ⟨path, hp, hh⟩ := Option.bind_eq_some_iff.mp ha
        have hready := halt path (by
          rcases ht.alternate with he | he
          · exact he ▸ hp
          · simp [he] at hp)
        obtain ⟨out, he, hout⟩ := hfollow path hready
        refine ⟨⟨t.main, none, t.closed ++ out⟩, by simp [turn, hb, hm, hp, hh, he], ?_⟩
        exact ht.next (Or.inl rfl) (Or.inr rfl) (hout next hh)
      obtain ⟨result, blocked', he, hsome, hnone⟩ :=
        findPath_spec hverts h.marks h.root_mem next (hverts v next hnext) hb
      cases result with
      | some path =>
          obtain ⟨-, hlead, hhead, hreach⟩ := hsome path rfl
          obtain ⟨out, hf, hout⟩ :=
            hfollow _ (h.ready (hverts v next hnext) hb hlead hhead hreach)
          refine ⟨{ t with closed := t.closed ++ out }, by simp [turn, hb, hm, ha, he, hf], ?_⟩
          exact ht.next (Or.inl rfl) (Or.inl rfl) (hout next hhead)
      | none =>
          obtain ⟨-, -, hno, -, -⟩ := hnone rfl
          -- a root that is found dead was on the main path or is missed
          have hroot : next = root → ¬Clean succ root (v :: below) := by
            rintro rfl hc
            refine hc.not_missed (hdirect hnext (fun hh => ?_) hno)
            rcases ht.main with he | ⟨-, x, hx, he⟩
            · exact hm (he ▸ hh)
            · obtain rfl : next = x := by simpa [hh] using he
              exact hnew hx
          refine ⟨t, by simp [turn, hb, hm, ha, he], ?_⟩
          simpa using ht.next (Or.inl rfl) (Or.inl rfl)
            (between_piece_of_not_reaches hroot fun _ => hno)

-- One level of branching: if following a path works, so does the loop at `v`.
theorem cycles_step (hverts : ∀ v, ∀ next ∈ succ v, next ∈ verts) (hrow : ∀ v, (succ v).Nodup)
    (fuel : Nat) (main alternate : Option (List V))
    (h : Tracked succ root verts (v :: below) blocked)
    (hmain : ∀ path ∈ main, Ready succ root verts (v :: below) path)
    (halt : ∀ path ∈ alternate, Ready succ root verts (v :: below) path)
    (hdirect : root ∈ succ v → main.bind List.head? ≠ some root →
      ¬Reaches succ root {x | x ∈ v :: below} root → Missed succ root (v :: below))
    (hfollow : ∀ path, Ready succ root verts (v :: below) path →
      ∃ out, follow succ root skipRoot verts.length fuel v path (v :: below) blocked = some out ∧
        ∀ next, path.head? = some next →
          Between succ root (piece succ root verts (v :: below) next) out) :
    ∃ out, cycles succ root skipRoot verts.length (fuel + 1) v (v :: below) blocked main alternate =
        some out ∧ Between succ root (every succ root verts (v :: below)) out := by
  obtain ⟨t, he, ht⟩ := foldlM_spec _ (succ v)
    (Turned succ root verts (v :: below) main alternate)
    (fun before next after t hsplit ht => by
      have hnew := hrow v
      rw [hsplit, List.nodup_middle, List.nodup_cons, List.mem_append] at hnew
      exact turn_spec hverts h hmain halt hdirect hfollow (by simp [hsplit])
        (fun hm => hnew.1 (Or.inl hm)) ht)
    ⟨main, alternate, []⟩ ⟨Or.inl rfl, Or.inl rfl, between_nil⟩
  refine ⟨t.closed, by rw [cycles, he]; rfl, ?_⟩
  rw [every_cons hverts v below h.nodup h.mem_verts]
  exact ht.closed

end Step

-- Following a path lists the closings that start with its first vertex. Every
-- call of `cycles` works on a longer stack, so the fuel is a proved bound.
theorem follow_spec (hverts : ∀ v, ∀ next ∈ succ v, next ∈ verts) (hrow : ∀ v, (succ v).Nodup)
    (hskip : skipRoot = true → ∀ v, root ∈ succ v → (succ v).head? = some root)
    (fuel : Nat) (vertex : V) (path stack : List V) (blocked : V → Bool)
    (h : Tracked succ root verts stack blocked) (hready : Ready succ root verts stack path)
    (hfuel : 2 * verts.length + 1 ≤ fuel + 2 * stack.length) :
    ∃ out, follow succ root skipRoot verts.length fuel vertex path stack blocked = some out ∧
      ∀ v, path.head? = some v → Between succ root (piece succ root verts stack v) out := by
  induction fuel using Nat.strongRecOn generalizing vertex path stack blocked with
  | _ fuel ih =>
      have hlen := (h.nodup.subperm h.mem_verts).length_le
      obtain ⟨fuel, rfl⟩ : ∃ k, fuel = k + 1 := ⟨fuel - 1, by omega⟩
      rcases hready with ⟨rest, rfl, hmiss⟩ | ⟨v, rest, rfl, hne, hm, hv, hlead⟩
      · refine ⟨[stack], by simp [follow, advance], fun v hh => ?_⟩
        obtain rfl : root = v := by simpa using hh
        rw [piece, branch_root rfl]
        exact between_self hmiss
      · obtain ⟨fork, hadv, hfork⟩ :=
          advance_spec hverts hrow hskip rest v vertex stack blocked h hne hm hv hlead
        cases ha : fork.alternate with
        | none =>
            refine ⟨[fork.stack], by simp [follow, hadv, ha], fun u hu => ?_⟩
            obtain rfl : v = u := by simpa using hu
            exact hfork.done ha
        | some alternate =>
            have hs : fork.alternate.isSome := by simp [ha]
            obtain ⟨below, htop⟩ := hfork.top hs
            have ht := hfork.tracked hs
            have hgrown := hfork.grown hs
            have hlen' := (ht.nodup.subperm ht.mem_verts).length_le
            obtain ⟨fuel, rfl⟩ : ∃ k, fuel = k + 1 := ⟨fuel - 1, by omega⟩
            have hcyc := cycles_step hverts hrow fuel (some fork.path) (some alternate) (htop ▸ ht)
              (by rintro p hp; obtain rfl : fork.path = p := by simpa using hp
                  exact htop ▸ hfork.main hs)
              (fun p hp => htop ▸ hfork.alternate p (ha ▸ hp))
              (by simpa [htop] using hfork.direct hs)
              (fun path hp => ih fuel (by omega) fork.vertex path (fork.vertex :: below) fork.blocked
                (htop ▸ ht) hp (by rw [htop] at hgrown; omega))
            obtain ⟨out, he, hout⟩ := hcyc
            refine ⟨out, by simp [follow, hadv, ha, htop, he], fun u hu => ?_⟩
            obtain rfl : v = u := by simpa using hu
            exact hfork.branch hs out (htop ▸ hout)

omit [DecidableEq V] in
theorem tracked_root (succ : V → List V) (hroot : root ∈ verts) :
    Tracked succ root verts [root] fun _ => false where
  marks := ⟨fun x hx hne => absurd (List.mem_singleton.mp hx) hne, fun x hx => by simp at hx⟩
  root_blocked h := by simp at h
  nodup := List.nodup_singleton root
  mem_verts x hx := List.mem_singleton.mp hx ▸ hroot
  root_mem := List.mem_singleton_self root

-- Without a missed closing nothing is lost.
omit [DecidableEq V] in
theorem Between.eq {all out : List (List V)} (h : Between succ root all out)
    (hno : ∀ stack ∈ all, Clean succ root stack) : out = all := by
  classical
  obtain ⟨hlow, hhigh⟩ := h
  have hall : all.filter (fun stack => decide (Clean succ root stack)) = all :=
    List.filter_eq_self.mpr fun stack hs => by simpa using hno stack hs
  rw [hall] at hlow
  exact (hhigh.trans List.filter_sublist).antisymm hlow

omit [DecidableEq V] in
theorem Between.filter {all out : List (List V)} (h : Between succ root all out)
    (keep : List V → Bool) : Between succ root (all.filter keep) (out.filter keep) := by
  obtain ⟨hlow, hhigh⟩ := h
  constructor
  · rw [List.filter_comm]
    exact hlow.filter keep
  · rw [List.filter_comm]
    exact hhigh.filter keep

-- A missed closing is lost.
omit [DecidableEq V] in
theorem Between.not_mem {all out : List (List V)} (h : Between succ root all out) {stack : List V}
    (hm : Missed succ root stack) : stack ∉ out := by
  classical
  intro hs
  have := List.mem_filter.mp (h.2.subset hs)
  simp [hm] at this

omit [DecidableEq V] in
theorem Between.sublist {all out : List (List V)} (h : Between succ root all out) :
    out.Sublist all := by
  classical
  exact h.2.trans List.filter_sublist

-- A missed part of a closing is a closing itself, so it is enough to look at these.
omit [DecidableEq V] in
theorem Closes.clean {cap : Option Nat} {first : V} {closed : List V}
    (h : Closes succ root cap [first, root] closed) (hloop : root ∉ succ root)
    (hcap : ∀ limit ∈ cap, 2 ≤ limit)
    (hno : ∀ part, Closes succ root cap [first, root] part → ¬Missed succ root part) :
    Clean succ root closed := by
  intro part hpart hmiss
  obtain ⟨v, below, before, after, p, hp, hsplit, -⟩ := id hmiss
  have harc : root ∈ succ v := by simp [hsplit]
  have hpair : [first, root] <:+ part := by
    rcases List.suffix_or_suffix_of_suffix hpart h.suffix with hshort | hlong
    · subst hp
      rcases List.suffix_cons_iff.mp hshort with he | hshort
      · exact he ▸ List.suffix_refl _
      · rcases List.suffix_cons_iff.mp hshort with he | hnil
        · obtain rfl := (List.cons.inj he).1
          exact absurd harc hloop
        · simp at hnil
    · exact hlong
  refine hno part (h.part hpart hpair ⟨v, by simp [hp], harc⟩ ?_) hmiss
  exact hcap

-- Where an arc to the root always comes first, no closing is missed.
omit [DecidableEq V] in
theorem not_missed_of_head {stack : List V} (hrow : ∀ v, (succ v).Nodup)
    (hhead : ∀ v ∈ stack.head?, root ∈ succ v → (succ v).head? = some root) :
    ¬Missed succ root stack := by
  rintro ⟨v, below, before, after, p, rfl, hsplit, hp, -⟩
  have hh := hhead v rfl (by simp [hsplit])
  have hn := hrow v
  cases before with
  | nil => simp at hp
  | cons x before =>
      rw [hsplit] at hh hn
      obtain rfl : x = root := by simpa using hh
      simp at hn

-- The whole search from a root that has no arc to itself.
theorem cycles_spec (succ : V → List V) (root : V) (skipRoot : Bool) (verts : List V)
    (hverts : ∀ v, ∀ next ∈ succ v, next ∈ verts) (hrow : ∀ v, (succ v).Nodup)
    (hskip : skipRoot = true → ∀ v, root ∈ succ v → (succ v).head? = some root)
    (hroot : root ∈ verts) (hloop : root ∉ succ root) :
    ∃ out, cycles succ root skipRoot verts.length (2 * verts.length) root [root] (fun _ => false) none
        none = some out ∧ Between succ root (every succ root verts [root]) out := by
  have htracked := tracked_root succ hroot
  obtain ⟨fuel, hf⟩ : ∃ k, 2 * verts.length = k + 1 :=
    ⟨2 * verts.length - 1, by have := List.length_pos_of_mem hroot; omega⟩
  rw [hf]
  apply cycles_step hverts hrow fuel none none htracked (by simp) (by simp)
    (fun h => absurd h hloop)
  intro path hready
  exact follow_spec hverts hrow hskip fuel root path [root] _ htracked hready (by simp; omega)

-- The search along a first arc: a path back is looked for, and followed.
theorem follow_start_spec (succ : V → List V) (root : V) (skipRoot : Bool) (verts : List V)
    (hverts : ∀ v, ∀ next ∈ succ v, next ∈ verts)
    (hrow : ∀ v, (succ v).Nodup)
    (hskip : skipRoot = true → ∀ v, root ∈ succ v → (succ v).head? = some root)
    (hroot : root ∈ verts) {first : V} (hfirst : first ∈ verts) (hne : first ≠ root) :
    ∃ result blocked', findPath succ root verts.length first (fun _ => false) =
        some (result, blocked') ∧
      (result = none → every succ root verts [first, root] = []) ∧
      ∀ path ∈ result, ∃ out, follow succ root skipRoot verts.length (2 * verts.length) root path
          [root] blocked' = some out ∧ Between succ root (every succ root verts [first, root]) out := by
  have htracked := tracked_root succ hroot
  obtain ⟨result, blocked', he, hsome, hnone⟩ :=
    findPath_spec hverts htracked.marks htracked.root_mem first hfirst rfl
  refine ⟨result, blocked', he, fun hn => ?_, fun path hp => ?_⟩
  · exact closings_eq_nil_of_not_reaches _ _ _ (hnone hn).2.2.1
  · obtain ⟨rfl, hlead, hhead, -⟩ := hsome path hp
    obtain ⟨rest, rfl⟩ := List.head?_eq_some_iff.mp hhead
    have hm : first ∉ [root] := by simpa using hne
    obtain ⟨out, hf, hout⟩ := follow_spec hverts hrow hskip (2 * verts.length) root (first :: rest)
      [root] _ htracked (Or.inr ⟨first, rest, rfl, hne, hm, hfirst, hlead⟩) (by simp)
    exact ⟨out, hf, by simpa [piece_of_notMem hne hm] using hout first rfl⟩

end CycleEnum.Enumeration
