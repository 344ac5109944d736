import CycleEnum.Enumeration.Johnson

namespace CycleEnum.Enumeration

open Blocking (register_blockedList)

variable {V : Type} [DecidableEq V]

-- The two ways in which a round of the loop can go wrong under a cap. A call that
-- failed only because its path was too long leaves its vertex blocked: a later round
-- loses closings when it skips a blocked vertex off the stack from which the root is
-- still in reach.
def Skips (root : V) (cap : Option Nat) (stack : List V) (all : V → List (List V))
    (deeper : V → Blocking V → Prop) (next : V) (report : Report V) : Prop :=
  next ≠ root ∧ cut cap stack.length = false ∧
    if report.marks.blocked next then next ∉ stack ∧ all next ≠ [] else deeper next report.marks

-- The other is to enter a vertex of the stack, which the lists of such a vertex
-- have freed.
def Reenters (root : V) (cap : Option Nat) (stack : List V) (deeper : V → Blocking V → Prop)
    (next : V) (report : Report V) : Prop :=
  next ≠ root ∧ cut cap stack.length = false ∧ report.marks.blocked next = false ∧
    (next ∈ stack ∨ deeper next report.marks)

def Loses (succ : V → List V) (root : V) (cap : Option Nat) (verts : List V) :
    Nat → List V → V → Blocking V → Prop
  | 0, _, _, _ => False
  | fuel + 1, below, v, b =>
      SomeRound (scan root cap (v :: below) (circuit succ root cap verts fuel (v :: below)))
        (Skips root cap (v :: below) (fun next => closings succ root cap fuel (next :: v :: below))
          (Loses succ root cap verts fuel (v :: below)))
        (succ v) ⟨false, b.mark v true, []⟩

def Revisits (succ : V → List V) (root : V) (cap : Option Nat) (verts : List V) :
    Nat → List V → V → Blocking V → Prop
  | 0, _, _, _ => False
  | fuel + 1, below, v, b =>
      SomeRound (scan root cap (v :: below) (circuit succ root cap verts fuel (v :: below)))
        (Reenters root cap (v :: below) (Revisits succ root cap verts fuel (v :: below)))
        (succ v) ⟨false, b.mark v true, []⟩

instance {root : V} {cap : Option Nat} {stack : List V} {all : V → List (List V)}
    {deeper : V → Blocking V → Prop} [∀ next marks, Decidable (deeper next marks)] (next : V)
    (report : Report V) : Decidable (Skips root cap stack all deeper next report) :=
  inferInstanceAs (Decidable (next ≠ root ∧ cut cap stack.length = false ∧
    if report.marks.blocked next then next ∉ stack ∧ all next ≠ [] else deeper next report.marks))

instance {root : V} {cap : Option Nat} {stack : List V} {deeper : V → Blocking V → Prop}
    [∀ next marks, Decidable (deeper next marks)] (next : V) (report : Report V) :
    Decidable (Reenters root cap stack deeper next report) :=
  inferInstanceAs (Decidable (_ ∧ _ ∧ _ ∧ _))

instance decidableLoses (succ : V → List V) (root : V) (cap : Option Nat) (verts : List V) :
    ∀ fuel below v b, Decidable (Loses succ root cap verts fuel below v b)
  | 0, _, _, _ => isFalse id
  | fuel + 1, below, v, _ =>
      have := decidableLoses succ root cap verts fuel (v :: below)
      inferInstanceAs (Decidable (SomeRound _ (Skips _ _ _ _ _) _ _))

instance decidableRevisits (succ : V → List V) (root : V) (cap : Option Nat) (verts : List V) :
    ∀ fuel below v b, Decidable (Revisits succ root cap verts fuel below v b)
  | 0, _, _, _ => isFalse id
  | fuel + 1, below, v, _ =>
      have := decidableRevisits succ root cap verts fuel (v :: below)
      inferInstanceAs (Decidable (SomeRound _ (Reenters _ _ _ _) _ _))

-- A result that holds part of the closings, and whether some of them are lost.
structure PartOf (lost : Prop) (part all : List (List V)) : Prop where
  sublist : part.Sublist all
  lost_iff : lost ↔ part ≠ all

omit [DecidableEq V] in
theorem PartOf.append {lost lost' : Prop} {part part' all all' : List (List V)}
    (h : PartOf lost part all) (h' : PartOf lost' part' all') :
    PartOf (lost ∨ lost') (part ++ part') (all ++ all') where
  sublist := h.sublist.append h'.sublist
  lost_iff := by
    rw [h.lost_iff, h'.lost_iff, ← not_and_or, not_iff_not]
    constructor
    · rintro ⟨rfl, rfl⟩
      rfl
    · intro heq
      have hlen := congrArg List.length heq
      rw [List.length_append, List.length_append] at hlen
      have := h.sublist.length_le
      have := h'.sublist.length_le
      exact ⟨h.sublist.eq_of_length (by omega), h'.sublist.eq_of_length (by omega)⟩

omit [DecidableEq V] in
theorem partOf_self {lost : Prop} (h : ¬lost) (all : List (List V)) : PartOf lost all all :=
  ⟨List.Sublist.refl _, by simpa using h⟩

omit [DecidableEq V] in
theorem PartOf.congr {lost lost' : Prop} {part all : List (List V)} (h : PartOf lost part all)
    (he : lost ↔ lost') : PartOf lost' part all :=
  ⟨h.sublist, he.symm.trans h.lost_iff⟩

section Loop

variable {root : V} {cap : Option Nat} {stack verts : List V}
  {enter : V → Blocking V → Option (Report V)} {all : V → List (List V)}

-- Calls that list part of the closings of the vertex they enter.
def EntersPart (verts : List V) (enter : V → Blocking V → Option (Report V))
    (all : V → List (List V)) (lost revisited : V → Blocking V → Prop) (next : V)
    (marks : Blocking V) : Prop :=
  ¬revisited next marks → ∃ inner, enter next marks = some inner ∧
    (∀ x, ∀ y ∈ inner.marks.blockedList x, y ∈ verts) ∧ PartOf (lost next marks) inner.closed (all next)

theorem scan_part (lost revisited : V → Blocking V → Prop) {next : V} {report : Report V}
    (hlists : ∀ x, ∀ y ∈ report.marks.blockedList x, y ∈ verts)
    (henter : next ∉ stack → EntersPart verts enter all lost revisited next report.marks)
    (hno : ¬Reenters root cap stack revisited next report) :
    ∃ report' part, scan root cap stack enter report next = some report' ∧
      (∀ x, ∀ y ∈ report'.marks.blockedList x, y ∈ verts) ∧
      report'.closed = report.closed ++ part ∧
      PartOf (Skips root cap stack all lost next report) part (branch root cap stack all next) := by
  by_cases hr : next = root
  · exact ⟨{ report with found := true, closed := report.closed ++ [stack] }, [stack],
      by rw [scan, if_pos hr], hlists, rfl, by
        rw [branch_root hr]
        exact partOf_self (fun h => h.1 hr) _⟩
  cases hc : cut cap stack.length with
  | true =>
      have hnil : branch root cap stack all next = [] := branch_skip hr (Or.inr hc)
      refine ⟨report, [], by simp [scan, hr, hc], hlists, (List.append_nil _).symm, ?_⟩
      rw [hnil]
      exact partOf_self (fun h => Bool.noConfusion (hc.symm.trans h.2.1)) _
  | false =>
      cases hb : report.marks.blocked next with
      | true =>
          refine ⟨report, [], by simp [scan, hr, hb], hlists, (List.append_nil _).symm,
            List.nil_sublist _, ?_⟩
          by_cases hm : next ∈ stack
          · simp [branch, Skips, hr, hb, hm]
          · simp [branch, Skips, hr, hb, hm, hc, eq_comm]
      | false =>
          have hm : next ∉ stack := fun hm => hno ⟨hr, hc, hb, Or.inl hm⟩
          obtain ⟨inner, he, hl, hpart⟩ := henter hm fun hrev => hno ⟨hr, hc, hb, Or.inr hrev⟩
          refine ⟨⟨report.found || inner.found, inner.marks, report.closed ++ inner.closed⟩,
            inner.closed, by simp [scan, hr, hb, hc, he], hl, rfl, ?_⟩
          rw [branch_enter hr hm hc]
          exact hpart.congr (by simp [Skips, hr, hc, hb])

theorem loop_part (lost revisited : V → Blocking V → Prop) (row : List V) (report : Report V)
    (hlists : ∀ x, ∀ y ∈ report.marks.blockedList x, y ∈ verts)
    (henter : ∀ next ∈ row, next ∉ stack → ∀ marks : Blocking V,
      (∀ x, ∀ y ∈ marks.blockedList x, y ∈ verts) →
        EntersPart verts enter all lost revisited next marks)
    (hno : ¬SomeRound (scan root cap stack enter) (Reenters root cap stack revisited) row report) :
    ∃ scanned part, row.foldlM (scan root cap stack enter) report = some scanned ∧
      (∀ x, ∀ y ∈ scanned.marks.blockedList x, y ∈ verts) ∧
      scanned.closed = report.closed ++ part ∧
      PartOf (SomeRound (scan root cap stack enter) (Skips root cap stack all lost) row report) part
        (row.flatMap (branch root cap stack all)) := by
  induction row generalizing report with
  | nil => exact ⟨report, [], rfl, hlists, by simp, partOf_self id _⟩
  | cons next rest ih =>
      obtain ⟨hnow, hlater⟩ := not_or.mp hno
      obtain ⟨report₁, part₁, hscan, hl₁, hc₁, hp₁⟩ := scan_part lost revisited hlists
        (fun hm => henter next (by simp) hm report.marks hlists) hnow
      obtain ⟨report₂, part₂, hrun, hl₂, hc₂, hp₂⟩ := ih report₁ hl₁
        (fun x hx => henter x (List.mem_cons_of_mem _ hx)) fun h => hlater ⟨report₁, hscan, h⟩
      refine ⟨report₂, part₁ ++ part₂, by rw [List.foldlM_cons, hscan]; exact hrun, hl₂,
        by rw [hc₂, hc₁, List.append_assoc], ?_⟩
      rw [List.flatMap_cons]
      exact (hp₁.append hp₂).congr (by simp [SomeRound, hscan])

end Loop

variable {succ : V → List V} {root : V} {cap : Option Nat} {verts : List V}

theorem leave_part (succ : V → List V) (root : V) {v : V} {report : Report V} (hv : v ∈ verts)
    (hlists : ∀ x, ∀ y ∈ report.marks.blockedList x, y ∈ verts) :
    ∃ report', leave succ root verts v report = some report' ∧
      (∀ x, ∀ y ∈ report'.marks.blockedList x, y ∈ verts) ∧ report'.closed = report.closed := by
  cases hf : report.found with
  | true =>
      obtain ⟨marks, he, hd⟩ := Blocking.unblock_spec verts v report.marks hv hlists
      exact ⟨{ report with marks }, by simp [leave, hf, he],
        fun x y hy => hlists x y (hd.sub x hy), rfl⟩
  | false =>
      refine ⟨{ report with marks := report.marks.register v ((succ v).filter (· ≠ root)) },
        by simp [leave, hf], fun x y hy => ?_, rfl⟩
      rw [register_blockedList] at hy
      split_ifs at hy
      · rcases List.mem_cons.mp hy with rfl | hy
        · exact hv
        · exact hlists x y hy
      · exact hlists x y hy

-- A search that enters no vertex of its stack lists part of the closings, and all of
-- them exactly when it loses none.
theorem circuit_part (hverts : ∀ v, ∀ next ∈ succ v, next ∈ verts) (fuel : Nat) (below : List V)
    (v : V) (b : Blocking V) (hlists : ∀ x, ∀ y ∈ b.blockedList x, y ∈ verts)
    (hn : (v :: below).Nodup) (hs : ∀ x ∈ v :: below, x ∈ verts)
    (hfuel : verts.length < (v :: below).length + fuel)
    (hno : ¬Revisits succ root cap verts fuel below v b) :
    ∃ report, circuit succ root cap verts fuel below v b = some report ∧
      (∀ x, ∀ y ∈ report.marks.blockedList x, y ∈ verts) ∧
      PartOf (Loses succ root cap verts fuel below v b) report.closed
        (closings succ root cap fuel (v :: below)) := by
  induction fuel generalizing below v b with
  | zero => have := (hn.subperm hs).length_le; omega
  | succ fuel ih =>
      obtain ⟨scanned, part, hrun, hl, hclosed, hpart⟩ := loop_part
        (Loses succ root cap verts fuel (v :: below))
        (Revisits succ root cap verts fuel (v :: below)) (succ v) ⟨false, b.mark v true, []⟩ hlists
        (fun next hnext hm marks hmarks hrev => ih (v :: below) next marks hmarks
          (List.nodup_cons.mpr ⟨hm, hn⟩)
          (fun x hx => by
            rcases List.mem_cons.mp hx with rfl | hx
            · exact hverts v _ hnext
            · exact hs x hx)
          (by simp only [List.length_cons] at hfuel ⊢; omega) hrev) hno
      obtain ⟨report, hleave, hl', hc'⟩ := leave_part succ root (hs v (by simp)) hl
      refine ⟨report, by rw [circuit, hrun]; exact hleave, hl', ?_⟩
      rw [hc', hclosed, List.nil_append]
      exact hpart

end CycleEnum.Enumeration
