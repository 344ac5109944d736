import CycleEnum.Enumeration.Blocking
import CycleEnum.Enumeration.Loops
import CycleEnum.Enumeration.Reaches

namespace CycleEnum.Enumeration

open Blocking (mark_blocked register_blockedList)

variable {V : Type}

-- What a call of the search has produced so far.
structure Report (V : Type) where
  found : Bool
  marks : Blocking V
  closed : List (List V)

-- The marks between two calls, for the stack in use. The second clause is what
-- makes skipping sound: from a blocked vertex off the stack, every way to the
-- root runs into the stack.
structure Blocks (succ : V → List V) (root : V) (verts : List V) (stack : List V)
    (b : Blocking V) : Prop where
  path : ∀ x ∈ stack, x ≠ root → b.blocked x = true
  off : ∀ x, b.blocked x = true → x ∉ stack →
    ∀ y ∈ succ x, y ≠ root ∧ b.blocked y = true ∧ x ∈ b.blockedList y
  free : ∀ x, b.blocked x = false → b.blockedList x = []
  lists : ∀ x, ∀ y ∈ b.blockedList x, y ∈ verts

-- A set of blocked vertices that no list of an outside vertex refers to.
def Shut (b : Blocking V) (safe : Set V) : Prop :=
  (∀ x ∈ safe, b.blocked x = true) ∧ ∀ x ∉ safe, ∀ y ∈ b.blockedList x, y ∉ safe

def Keeps (b b' : Blocking V) : Prop :=
  ∀ safe, Shut b safe → Shut b' safe

theorem Keeps.trans {b₁ b₂ b₃ : Blocking V} (h₁ : Keeps b₁ b₂) (h₂ : Keeps b₂ b₃) : Keeps b₁ b₃ :=
  fun safe hs => h₂ safe (h₁ safe hs)

-- Whatever is blocked when a call starts is blocked when it returns.
theorem Keeps.blocked {b b' : Blocking V} (h : Keeps b b')
    (hfree : ∀ x, b.blocked x = false → b.blockedList x = []) (x : V)
    (hx : b.blocked x = true) : b'.blocked x = true := by
  refine (h {x | b.blocked x = true} ⟨fun x hx => hx, fun x hx y hy => ?_⟩).1 x hx
  have hf : b.blocked x = false := Bool.eq_false_iff.mpr hx
  simp [hfree x hf] at hy

theorem blocks_none {succ : V → List V} {root : V} {verts : List V} (stack : List V)
    (hs : ∀ x ∈ stack, x = root) : Blocks succ root verts stack Blocking.none where
  path x hx hne := absurd (hs x hx) hne
  off x hx := by simp at hx
  free _ _ := rfl
  lists x y hy := by simp at hy

theorem Blocks.not_reaches {succ : V → List V} {root : V} {verts stack : List V} {b : Blocking V}
    (h : Blocks succ root verts stack b) {x : V} (hx : b.blocked x = true) (hs : x ∉ stack) :
    ¬Reaches succ root {y | y ∈ stack} x := by
  apply not_reaches_of_closed {y | b.blocked y = true ∧ y ∉ stack} _ ⟨hx, hs⟩
  rintro u ⟨hu, hus⟩
  refine ⟨fun hr => (h.off u hu hus root hr).1 rfl, fun y hy => ?_⟩
  by_cases hm : y ∈ stack
  · exact Or.inr hm
  · exact Or.inl ⟨(h.off u hu hus y hy).2.1, hm⟩

variable [DecidableEq V]

def scan (root : V) (cap : Option Nat) (stack : List V)
    (enter : V → Blocking V → Option (Report V)) (report : Report V) (next : V) :
    Option (Report V) :=
  if next = root then some { report with found := true, closed := report.closed ++ [stack] }
  else if report.marks.blocked next then some report
  else if cut cap stack.length then some report
  else (enter next report.marks).bind fun inner =>
    some ⟨report.found || inner.found, inner.marks, report.closed ++ inner.closed⟩

def leave (succ : V → List V) (root : V) (verts : List V) (v : V) (report : Report V) :
    Option (Report V) :=
  if report.found then
    (report.marks.unblock verts v).map fun marks => { report with marks }
  else
    some { report with marks := report.marks.register v ((succ v).filter (· ≠ root)) }

-- Johnson's search from `v` above the stack `below`. A vertex from which no
-- cycle was found stays blocked until one of its successors is freed.
def circuit (succ : V → List V) (root : V) (cap : Option Nat) (verts : List V) :
    Nat → List V → V → Blocking V → Option (Report V)
  | 0, _, _, _ => none
  | fuel + 1, below, v, b =>
      ((succ v).foldlM (scan root cap (v :: below) (circuit succ root cap verts fuel (v :: below)))
        ⟨false, b.mark v true, []⟩).bind (leave succ root verts v)

-- The cap takes effect on a call only if the call finds a cycle or has no
-- unblocked successor, and the same holds for every call below it.
def Uncut (succ : V → List V) (root : V) (cap : Option Nat) (verts : List V) :
    Nat → List V → V → Blocking V → Prop
  | 0, _, _, _ => True
  | fuel + 1, below, v, b =>
      (cut cap (v :: below).length = true → root ∉ succ v →
        ∀ next ∈ succ v, (b.mark v true).blocked next = true) ∧
      ∀ before next after report, succ v = before ++ next :: after →
        before.foldlM (scan root cap (v :: below) (circuit succ root cap verts fuel (v :: below)))
          ⟨false, b.mark v true, []⟩ = some report →
        next ≠ root → report.marks.blocked next = false → cut cap (v :: below).length = false →
        Uncut succ root cap verts fuel (v :: below) next report.marks

variable {succ : V → List V} {root : V} {cap : Option Nat} {verts : List V}

theorem uncut_none (fuel : Nat) (below : List V) (v : V) (b : Blocking V) :
    Uncut succ root none verts fuel below v b := by
  induction fuel generalizing below v b with
  | zero => trivial
  | succ fuel ih => exact ⟨fun h => by simp at h, fun _ _ _ _ _ _ _ _ _ => ih _ _ _⟩

theorem Blocks.push {below : List V} {v : V} {b : Blocking V}
    (h : Blocks succ root verts below b) : Blocks succ root verts (v :: below) (b.mark v true) where
  path x hx hne := by
    rw [mark_blocked]
    rcases List.mem_cons.mp hx with rfl | hx
    · simp
    · simp [h.path x hx hne]
  off x hx hs y hy := by
    have hxv : x ≠ v := fun he => hs (by simp [he])
    rw [mark_blocked, if_neg hxv] at hx
    obtain ⟨hr, hby, hm⟩ := h.off x hx (fun hm => hs (List.mem_cons_of_mem _ hm)) y hy
    refine ⟨hr, ?_, hm⟩
    rw [mark_blocked, hby, ite_self]
  free x hx := by
    rw [mark_blocked] at hx
    split_ifs at hx with hxv
    exact h.free x hx
  lists := h.lists

theorem keeps_push (v : V) (b : Blocking V) : Keeps b (b.mark v true) := by
  intro safe hs
  refine ⟨fun x hx => ?_, hs.2⟩
  rw [mark_blocked, hs.1 x hx, ite_self]

-- Freeing `v` keeps every set that does not hold it shut, because the cascade
-- only follows the lists.
theorem keeps_unblock {v : V} {b b₀ b' : Blocking V} (hv : b₀.blocked v = false)
    (hk : Keeps b₀ b) (hd : Blocking.Drained v (b.mark v false) b') : Keeps b₀ b' := by
  intro safe hs
  have hvs : v ∉ safe := fun hm => by simp [hs.1 v hm] at hv
  have hsafe := hk safe hs
  refine ⟨fun x hx => ?_, fun x hx y hy => hsafe.2 x hx y (hd.sub x hy)⟩
  have hxv : x ≠ v := fun he => hvs (he ▸ hx)
  apply hd.spared safe hvs hsafe.2 x hx
  rw [mark_blocked, if_neg hxv, hsafe.1 x hx]

theorem keeps_register {v : V} (nexts : List V) {b b₀ : Blocking V} (hv : b₀.blocked v = false)
    (hk : Keeps b₀ b) : Keeps b₀ (b.register v nexts) := by
  intro safe hs
  have hvs : v ∉ safe := fun hm => by simp [hs.1 v hm] at hv
  have hsafe := hk safe hs
  refine ⟨fun x hx => by rw [Blocking.register_blocked]; exact hsafe.1 x hx, fun x hx y hy => ?_⟩
  rw [register_blockedList] at hy
  split_ifs at hy
  · rcases List.mem_cons.mp hy with rfl | hy
    · exact hvs
    · exact hsafe.2 x hx y hy
  · exact hsafe.2 x hx y hy

theorem Blocks.unblock {below : List V} {v : V} {b b₀ b' : Blocking V}
    (h : Blocks succ root verts (v :: below) b) (h₀ : Blocks succ root verts below b₀)
    (hk : Keeps b₀ b') (hd : Blocking.Drained v (b.mark v false) b') :
    Blocks succ root verts below b' where
  path x hx hne := hk.blocked h₀.free x (h₀.path x hx hne)
  off x hx hs y hy := by
    have hxm := hd.shrinks x hx
    rw [mark_blocked] at hxm
    split_ifs at hxm with hxv
    obtain ⟨hr, hby, hm⟩ := h.off x hxm (by simp [hxv, hs]) y hy
    -- otherwise `y` was freed, and `x` on its list with it
    have hyb : b'.blocked y = true := by
      by_contra hn
      have hn : b'.blocked y = false := Bool.eq_false_iff.mpr hn
      have hfreed : y = v ∨ ((b.mark v false).blocked y = true ∧ b'.blocked y = false) := by
        by_cases hyv : y = v
        · exact Or.inl hyv
        · exact Or.inr ⟨by rw [mark_blocked, if_neg hyv, hby], hn⟩
      simp [(hd.freed y hfreed).2 x hm] at hx
    have hym := hd.shrinks y hyb
    have hyv : y ≠ v := by rintro rfl; simp at hym
    exact ⟨hr, hyb, by rw [hd.kept y hyv (by rw [hyb, hym])]; exact hm⟩
  free x hx := by
    by_cases hxm : x = v ∨ (b.mark v false).blocked x = true
    · exact (hd.freed x (hxm.imp id fun ht => ⟨ht, hx⟩)).1
    · obtain ⟨hxv, hxb⟩ := not_or.mp hxm
      rw [mark_blocked, if_neg hxv] at hxb
      have hnil := h.free x (Bool.eq_false_iff.mpr hxb)
      exact List.subset_nil.mp (hnil ▸ hd.sub x)
  lists x y hy := h.lists x y (hd.sub x hy)

theorem Blocks.register {below : List V} {v : V} {b b₀ b' : Blocking V} (hv : v ∈ verts)
    (h : Blocks succ root verts (v :: below) b) (h₀ : Blocks succ root verts below b₀)
    (hk : Keeps b₀ b') (hb' : b' = b.register v ((succ v).filter (· ≠ root)))
    (hfail : ∀ y ∈ succ v, y ≠ root ∧ b.blocked y = true) : Blocks succ root verts below b' := by
  subst hb'
  refine ⟨fun x hx hne => hk.blocked h₀.free x (h₀.path x hx hne), ?_, ?_, ?_⟩
  · intro x hx hs y hy
    rw [Blocking.register_blocked] at hx ⊢
    rw [register_blockedList]
    by_cases hxv : x = v
    · subst hxv
      obtain ⟨hr, hby⟩ := hfail y hy
      refine ⟨hr, hby, ?_⟩
      by_cases hm : x ∈ b.blockedList y <;> simp [hm, hy, hr]
    · obtain ⟨hr, hby, hm⟩ := h.off x hx (by simp [hxv, hs]) y hy
      refine ⟨hr, hby, ?_⟩
      split_ifs
      · exact List.mem_cons_of_mem _ hm
      · exact hm
  · intro x hx
    rw [Blocking.register_blocked] at hx
    have hns : x ∉ succ v := fun hm => by simp [(hfail x hm).2] at hx
    rw [register_blockedList, if_neg (by simp [hns])]
    exact h.free x hx
  · intro x y hy
    rw [register_blockedList] at hy
    split_ifs at hy
    · rcases List.mem_cons.mp hy with rfl | hy
      · exact hv
      · exact h.lists x y hy
    · exact h.lists x y hy

-- What a call from `v` above `below` leaves behind.
structure Explored (succ : V → List V) (root : V) (cap : Option Nat) (verts : List V)
    (fuel : Nat) (below : List V) (v : V) (b : Blocking V) (report : Report V) : Prop where
  closed : report.closed = closings succ root cap fuel (v :: below)
  found : report.found = !report.closed.isEmpty
  blocks : Blocks succ root verts below report.marks
  keeps : Keeps b report.marks
  top : report.marks.blocked v = !report.found

-- What the loop over the successors has established after the part `before`.
structure Scanned (succ : V → List V) (root : V) (cap : Option Nat) (verts : List V)
    (fuel : Nat) (below : List V) (v : V) (b : Blocking V) (before : List V)
    (report : Report V) : Prop where
  closed : report.closed = before.flatMap (branch root cap (v :: below) fun next =>
    closings succ root cap fuel (next :: v :: below))
  found : report.found = !report.closed.isEmpty
  blocks : Blocks succ root verts (v :: below) report.marks
  keeps : Keeps (b.mark v true) report.marks
  fail : report.found = false → ∀ y ∈ before,
    y ≠ root ∧ (report.marks.blocked y = true ∨ cut cap (v :: below).length = true)

theorem Scanned.leave {fuel : Nat} {below : List V} {v : V} {b : Blocking V} {report : Report V}
    (hv : v ∈ verts) (hb : b.blocked v = false) (h₀ : Blocks succ root verts below b)
    (hcut : cut cap (v :: below).length = true → root ∉ succ v →
      ∀ next ∈ succ v, (b.mark v true).blocked next = true)
    (h : Scanned succ root cap verts fuel below v b (succ v) report) :
    ∃ report', leave succ root verts v report = some report' ∧
      Explored succ root cap verts (fuel + 1) below v b report' := by
  have hk : Keeps b report.marks := (keeps_push v b).trans h.keeps
  cases hf : report.found with
  | true =>
      obtain ⟨b', he, hd⟩ := Blocking.unblock_spec verts v report.marks hv h.blocks.lists
      have hk' := keeps_unblock hb hk hd
      refine ⟨{ report with marks := b' }, by simp [Enumeration.leave, hf, he],
        h.closed, h.found, h.blocks.unblock h₀ hk' hd, hk', ?_⟩
      have htop : b'.blocked v = false := Bool.eq_false_iff.mpr fun ht => by
        have := hd.shrinks v ht
        simp at this
      simp [htop, hf]
  | false =>
      have hfail : ∀ y ∈ succ v, y ≠ root ∧ report.marks.blocked y = true := by
        intro y hy
        obtain ⟨hr, hby | hc⟩ := h.fail hf y hy
        · exact ⟨hr, hby⟩
        · have hnr : root ∉ succ v := fun hm => (h.fail hf root hm).1 rfl
          exact ⟨hr, h.keeps.blocked h₀.push.free y (hcut hc hnr y hy)⟩
      have hk' := keeps_register ((succ v).filter (· ≠ root)) hb hk
      refine ⟨{ report with marks := report.marks.register v ((succ v).filter (· ≠ root)) },
        by simp [Enumeration.leave, hf], h.closed, h.found, h.blocks.register hv h₀ hk' rfl hfail, hk', ?_⟩
      have htop := h.keeps.blocked h₀.push.free v (by simp)
      simp [htop, hf]

theorem Scanned.start {fuel : Nat} {below : List V} {v : V} {b : Blocking V}
    (h : Blocks succ root verts below b) :
    Scanned succ root cap verts fuel below v b [] ⟨false, b.mark v true, []⟩ where
  closed := rfl
  found := rfl
  blocks := h.push
  keeps _ hs := hs
  fail _ y hy := by simp at hy

-- A skipped successor closes nothing.
theorem Scanned.skip {fuel : Nat} {below before : List V} {v next : V} {b : Blocking V}
    {report : Report V} (h : Scanned succ root cap verts fuel below v b before report)
    (hne : next ≠ root)
    (hskip : report.marks.blocked next = true ∨ cut cap (v :: below).length = true) :
    Scanned succ root cap verts fuel below v b (before ++ [next]) report where
  closed := by
    have hnil : branch root cap (v :: below)
        (fun next => closings succ root cap fuel (next :: v :: below)) next = [] := by
      unfold branch
      rw [if_neg hne]
      split_ifs with hmem hcut
      · rfl
      · rfl
      · exact closings_eq_nil_of_not_reaches _ _ _
          (h.blocks.not_reaches (hskip.resolve_right hcut) hmem)
    rw [h.closed, List.flatMap_append, List.flatMap_singleton, hnil, List.append_nil]
  found := h.found
  blocks := h.blocks
  keeps := h.keeps
  fail hf y hy := by
    rcases List.mem_append.mp hy with hy | hy
    · exact h.fail hf y hy
    · obtain rfl := List.mem_singleton.mp hy
      exact ⟨hne, hskip⟩

theorem Scanned.close {fuel : Nat} {below before : List V} {v : V} {b : Blocking V}
    {report : Report V} (h : Scanned succ root cap verts fuel below v b before report) :
    Scanned succ root cap verts fuel below v b (before ++ [root])
      { report with found := true, closed := report.closed ++ [v :: below] } where
  closed := by simp [h.closed, branch]
  found := by simp
  blocks := h.blocks
  keeps := h.keeps
  fail hf := by simp at hf

theorem Scanned.enter {fuel : Nat} {below before : List V} {v next : V} {b : Blocking V}
    {report inner : Report V} (h : Scanned succ root cap verts fuel below v b before report)
    (hne : next ≠ root) (hmem : next ∉ v :: below) (hcut : cut cap (v :: below).length = false)
    (hi : Explored succ root cap verts fuel (v :: below) next report.marks inner) :
    Scanned succ root cap verts fuel below v b (before ++ [next])
      ⟨report.found || inner.found, inner.marks, report.closed ++ inner.closed⟩ where
  closed := by
    rw [List.flatMap_append, List.flatMap_singleton, ← h.closed, hi.closed,
      branch_enter hne hmem hcut]
  found := by
    rw [h.found, hi.found]
    cases report.closed <;> simp
  blocks := hi.blocks
  keeps := h.keeps.trans hi.keeps
  fail hf y hy := by
    obtain ⟨hfr, hfi⟩ := Bool.or_eq_false_iff.mp hf
    rcases List.mem_append.mp hy with hy | hy
    · exact (h.fail hfr y hy).imp id fun hs => hs.imp (hi.keeps.blocked h.blocks.free y) id
    · obtain rfl := List.mem_singleton.mp hy
      exact ⟨hne, Or.inl (by rw [hi.top, hfi]; rfl)⟩

-- One round, if the search from the successor ahead is right.
theorem Scanned.step {fuel : Nat} {below before : List V} {v next : V} {b : Blocking V}
    {report : Report V} (h : Scanned succ root cap verts fuel below v b before report)
    (hinner : next ≠ root → report.marks.blocked next = false →
      cut cap (v :: below).length = false →
      ∃ inner, circuit succ root cap verts fuel (v :: below) next report.marks = some inner ∧
        Explored succ root cap verts fuel (v :: below) next report.marks inner) :
    ∃ report', scan root cap (v :: below) (circuit succ root cap verts fuel (v :: below)) report
        next = some report' ∧
      Scanned succ root cap verts fuel below v b (before ++ [next]) report' := by
  by_cases hne : next = root
  · subst hne
    exact ⟨_, by rw [scan, if_pos rfl], h.close⟩
  cases hbn : report.marks.blocked next with
  | true => exact ⟨_, by simp [scan, hne, hbn], h.skip hne (Or.inl hbn)⟩
  | false =>
      cases hc : cut cap (v :: below).length with
      | true => exact ⟨report, by rw [scan, if_neg hne, hbn, hc]; rfl, h.skip hne (Or.inr hc)⟩
      | false =>
          have hmem : next ∉ v :: below := fun hm => by
            simp [h.blocks.path next hm hne] at hbn
          obtain ⟨inner, he, hi⟩ := hinner hne hbn hc
          exact ⟨_, by rw [scan, if_neg hne, hbn, hc, he]; rfl, h.enter hne hmem hc hi⟩

-- With the cap out of the way, the search lists exactly the closings, in the
-- same order. Depth is bounded by the vertices off the stack.
theorem circuit_spec (hverts : ∀ v, ∀ next ∈ succ v, next ∈ verts) (fuel : Nat) (below : List V)
    (v : V) (b : Blocking V) (h : Blocks succ root verts below b) (hb : b.blocked v = false)
    (hn : (v :: below).Nodup) (hs : ∀ x ∈ v :: below, x ∈ verts)
    (hfuel : verts.length < (v :: below).length + fuel)
    (huncut : Uncut succ root cap verts fuel below v b) :
    ∃ report, circuit succ root cap verts fuel below v b = some report ∧
      Explored succ root cap verts fuel below v b report := by
  induction fuel generalizing below v b with
  | zero => have := (hn.subperm hs).length_le; omega
  | succ fuel ih =>
      obtain ⟨hcut, hbelow⟩ := huncut
      obtain ⟨report, he, -, hsc⟩ := foldlM_spec
        (scan root cap (v :: below) (circuit succ root cap verts fuel (v :: below))) (succ v)
        (fun before report => before.foldlM
          (scan root cap (v :: below) (circuit succ root cap verts fuel (v :: below)))
            ⟨false, b.mark v true, []⟩ = some report ∧
          Scanned succ root cap verts fuel below v b before report)
        (by
          rintro before next after report hsplit ⟨hrun, hsc⟩
          have hnext : next ∈ succ v := by simp [hsplit]
          have hinner : next ≠ root → report.marks.blocked next = false →
              cut cap (v :: below).length = false → ∃ inner,
                circuit succ root cap verts fuel (v :: below) next report.marks = some inner ∧
                  Explored succ root cap verts fuel (v :: below) next report.marks inner := by
            intro hne hbn hc
            have hmem : next ∉ v :: below := fun hm => by
              simp [hsc.blocks.path next hm hne] at hbn
            refine ih (v :: below) next report.marks hsc.blocks hbn
              (List.nodup_cons.mpr ⟨hmem, hn⟩) (fun x hx => ?_) ?_
              (hbelow before next after report hsplit hrun hne hbn hc)
            · rcases List.mem_cons.mp hx with rfl | hx
              · exact hverts v _ hnext
              · exact hs x hx
            · rw [List.length_cons]
              omega
          obtain ⟨report', he, hsc'⟩ := hsc.step hinner
          exact ⟨report', he, by rw [List.foldlM_append, hrun]; simp [he], hsc'⟩)
        _ ⟨rfl, Scanned.start h⟩
      obtain ⟨report', hl, hx⟩ := hsc.leave (hs v (by simp)) hb h hcut
      exact ⟨report', by rw [circuit, he]; exact hl, hx⟩

end CycleEnum.Enumeration
