import CycleEnum.Enumeration.Closings
import Mathlib.Data.List.Cycle
import Mathlib.Data.Set.Card

namespace CycleEnum.Enumeration

variable {V : Type}

-- In the cycle `c`, `b` comes right after `a`.
def Follows (c : Cycle V) (a b : V) : Prop := ∃ rest : List V, c = (↑(a :: b :: rest) : Cycle V)

theorem Follows.mem {c : Cycle V} {a b : V} (h : Follows c a b) : a ∈ c ∧ b ∈ c := by
  obtain ⟨rest, rfl⟩ := h
  simp

theorem follows_of_split {x a b : V} {l before after : List V} (hl : l ≠ [])
    (h : x :: (l ++ [x]) = before ++ a :: b :: after) : Follows (↑(x :: l) : Cycle V) a b := by
  rcases List.eq_nil_or_concat after with rfl | ⟨after, y, rfl⟩
  · have hsplit : (x :: l) ++ [x] = (before ++ [a]) ++ [b] := by simpa using h
    obtain ⟨hinit, hlast⟩ := List.append_inj' hsplit rfl
    obtain rfl : x = b := by simpa using hlast
    cases before with
    | nil => exact absurd (List.cons.inj hinit).2 hl
    | cons y before =>
        obtain ⟨rfl, hl⟩ := List.cons.inj hinit
        refine ⟨before, ?_⟩
        rw [hl]
        exact Quot.sound ⟨(x :: before).length, by simp⟩
  · have hsplit : (x :: l) ++ [x] = (before ++ a :: b :: after) ++ [y] := by simpa using h
    obtain ⟨hinit, -⟩ := List.append_inj' hsplit rfl
    refine ⟨after ++ before, ?_⟩
    rw [hinit]
    exact Quot.sound ⟨before.length, by simp⟩

-- A cycle of at least two vertices is made up of its arcs.
theorem chain_iff_follows (R : V → V → Prop) (c : Cycle V) (h : 2 ≤ c.length) :
    c.Chain R ↔ ∀ a b, Follows c a b → R a b := by
  constructor
  · rintro hc a b ⟨rest, rfl⟩
    rw [Cycle.chain_coe_cons] at hc
    exact (List.isChain_cons_cons.mp hc).1
  · induction c using Quot.inductionOn with
    | _ l =>
        intro hall
        cases l with
        | nil => exact Cycle.Chain.nil R
        | cons x l =>
            have hl : l ≠ [] := by
              rintro rfl
              exact absurd (show 2 ≤ 1 from h) (by omega)
            change Cycle.Chain R ↑(x :: l)
            rw [Cycle.chain_coe_cons, List.isChain_iff_forall_rel_of_append_cons_cons]
            intro a b before after hsplit
            exact hall a b (follows_of_split hl hsplit)

-- A cycle can be read from any of its vertices on.
theorem exists_rooted {c : Cycle V} {r : V} (h : r ∈ c) :
    ∃ rest : List V, c = (↑(r :: rest) : Cycle V) := by
  induction c using Quot.inductionOn with
  | _ l =>
      obtain ⟨before, after, rfl⟩ := List.append_of_mem (show r ∈ l from h)
      exact ⟨after ++ before,
        Quot.sound ⟨before.length, by simp⟩⟩

theorem exists_mem_of_length_pos {c : Cycle V} (h : 0 < c.length) : ∃ x, x ∈ c := by
  induction c using Quot.inductionOn with
  | _ l =>
      obtain ⟨x, hx⟩ := List.exists_mem_of_length_pos (show 0 < l.length from h)
      exact ⟨x, hx⟩

theorem exists_follows {c : Cycle V} (h : 2 ≤ c.length) {b : V} (hb : b ∈ c) :
    ∃ a, Follows c a b := by
  obtain ⟨l, rfl⟩ := exists_rooted hb
  rcases List.eq_nil_or_concat l with rfl | ⟨l, a, rfl⟩
  · exact absurd (show 2 ≤ 1 from h) (by omega)
  · refine ⟨a, l, ?_⟩
    exact Quot.sound ⟨(b :: l).length, by simp⟩

-- Two readings of a cycle from one vertex are the same.
theorem rooted_inj {r : V} {l l' : List V} (hn : (r :: l).Nodup)
    (h : (↑(r :: l) : Cycle V) = ↑(r :: l')) : l = l' := by
  obtain ⟨k, hk⟩ : (r :: l) ~r (r :: l') := Cycle.coe_eq_coe.mp h
  have hmod : (r :: l).rotate (k % (r :: l).length) = r :: l' := by rw [List.rotate_mod, hk]
  have hlt : k % (r :: l).length < (r :: l).length := Nat.mod_lt _ (by simp)
  have hhead := List.head?_rotate hlt
  rw [hmod, List.head?_cons, List.getElem?_eq_getElem hlt] at hhead
  have hzero : k % (r :: l).length = 0 := by
    have hsame : (r :: l)[k % (r :: l).length] = (r :: l)[0] := (Option.some.inj hhead).symm
    exact hn.getElem_inj_iff.mp hsame
  rw [hzero, List.rotate_zero] at hmod
  exact (List.cons.inj hmod).2

theorem Follows.unique {c : Cycle V} (hn : c.Nodup) {a b b' : V} (h : Follows c a b)
    (h' : Follows c a b') : b = b' := by
  obtain ⟨rest, rfl⟩ := h
  obtain ⟨rest', he⟩ := h'
  exact (List.cons.inj (rooted_inj (Cycle.nodup_coe_iff.mp hn) he)).1

theorem Follows.ne {c : Cycle V} {a b : V} (h : Follows c a b) (hn : c.Nodup) : a ≠ b := by
  obtain ⟨rest, rfl⟩ := h
  have hfirst := (List.nodup_cons.mp (Cycle.nodup_coe_iff.mp hn)).1
  exact fun heq => hfirst (heq ▸ List.mem_cons_self)

theorem exists_follower {c : Cycle V} (h : 2 ≤ c.length) {a : V} (ha : a ∈ c) :
    ∃ b, Follows c a b := by
  obtain ⟨l, rfl⟩ := exists_rooted ha
  cases l with
  | nil => exact absurd (show 2 ≤ 1 from h) (by omega)
  | cons b l => exact ⟨b, l, rfl⟩

-- The arcs of a cycle but the one that leaves its first vertex.
theorem rooted_chain_iff (R : V → V → Prop) {r first : V} {l : List V}
    (hn : (r :: first :: l).Nodup) :
    (first :: l ++ [r]).IsChain R ↔
      ∀ a b, Follows (↑(r :: first :: l) : Cycle V) a b → a ≠ r → R a b := by
  have hc : 2 ≤ (↑(r :: first :: l) : Cycle V).length := by
    rw [Cycle.length_coe]
    simp
  constructor
  · intro h a b hf hne
    have hall : (↑(r :: first :: l) : Cycle V).Chain fun a b => a = r ∨ R a b := by
      rw [Cycle.chain_coe_cons]
      exact List.isChain_cons_cons.mpr ⟨Or.inl rfl, h.imp fun a b => Or.inr⟩
    exact ((chain_iff_follows _ _ hc).mp hall a b hf).resolve_left hne
  · intro h
    rw [List.isChain_iff_forall_rel_of_append_cons_cons]
    intro a b before after hsplit
    have hmem : a ∈ first :: l := by
      have hinit := congrArg List.dropLast hsplit
      rw [List.dropLast_concat, List.dropLast_append_of_ne_nil (by simp), List.dropLast_cons_cons]
        at hinit
      simp [hinit]
    have hwhole : r :: (first :: l ++ [r]) = (r :: before) ++ a :: b :: after := by
      rw [hsplit, List.cons_append]
    apply h a b (follows_of_split (by simp) hwhole)
    rintro rfl
    exact (List.nodup_cons.mp hn).1 hmem

-- A set whose members a list names once each has as many of them.
theorem ncard_eq_length {α : Type} {found : Set α} {names : List α} (hn : names.Nodup)
    (h : ∀ x, x ∈ found ↔ x ∈ names) : found.ncard = names.length := by
  classical
  have hset : found = ↑names.toFinset := by
    ext x
    rw [h, List.coe_toFinset, Set.mem_ofPred_eq]
  rw [hset, Set.ncard_coe_finset, List.toFinset_card_of_nodup hn]

section Readings

variable {cycles : Set (Cycle V)} {readings : List (List V)} {Root : Cycle V → V → Prop}

theorem eq_image_of_readings (hmem : ∀ c, ∀ r, Root c r → r ∈ c)
    (hexists : ∀ c ∈ cycles, ∃ r, Root c r)
    (hspec : ∀ r l, r :: l ∈ readings ↔ (↑(r :: l) : Cycle V) ∈ cycles ∧ Root ↑(r :: l) r)
    (hnil : [] ∉ readings) :
    cycles = (fun l : List V => (↑l : Cycle V)) '' {l | l ∈ readings} := by
  ext c
  constructor
  · intro hc
    obtain ⟨r, hr⟩ := hexists c hc
    obtain ⟨l, rfl⟩ := exists_rooted (hmem c r hr)
    exact ⟨r :: l, (hspec r l).mpr ⟨hc, hr⟩, rfl⟩
  · rintro ⟨l, hl, rfl⟩
    cases l with
    | nil => exact absurd hl hnil
    | cons r l => exact ((hspec r l).mp hl).1

theorem finite_of_readings (hmem : ∀ c, ∀ r, Root c r → r ∈ c)
    (hexists : ∀ c ∈ cycles, ∃ r, Root c r)
    (hspec : ∀ r l, r :: l ∈ readings ↔ (↑(r :: l) : Cycle V) ∈ cycles ∧ Root ↑(r :: l) r)
    (hnil : [] ∉ readings) : cycles.Finite := by
  rw [eq_image_of_readings hmem hexists hspec hnil]
  exact (List.finite_toSet readings).image _

-- A set of cycles without repeated vertices is counted by a list of readings
-- that holds every cycle of the set once, read from a vertex chosen for it.
theorem ncard_eq_of_readings (hreadings : readings.Nodup)
    (hnodup : ∀ c ∈ cycles, c.Nodup) (hmem : ∀ c, ∀ r, Root c r → r ∈ c)
    (hexists : ∀ c ∈ cycles, ∃ r, Root c r)
    (hunique : ∀ c ∈ cycles, ∀ r r', Root c r → Root c r' → r = r')
    (hspec : ∀ r l, r :: l ∈ readings ↔ (↑(r :: l) : Cycle V) ∈ cycles ∧ Root ↑(r :: l) r)
    (hnil : [] ∉ readings) :
    cycles.ncard = readings.length := by
  have hinj : Set.InjOn (fun l : List V => (↑l : Cycle V)) {l | l ∈ readings} := by
    intro l hl l' hl' heq
    cases l with
    | nil => exact absurd hl hnil
    | cons r l =>
        cases l' with
        | nil => exact absurd hl' hnil
        | cons r' l' =>
            obtain ⟨hc, hr⟩ := (hspec r l).mp hl
            obtain ⟨-, hr'⟩ := (hspec r' l').mp hl'
            have heq : (↑(r :: l) : Cycle V) = ↑(r' :: l') := heq
            obtain rfl := hunique _ hc r r' hr (heq ▸ hr')
            rw [rooted_inj (Cycle.nodup_coe_iff.mp (hnodup _ hc)) heq]
  rw [eq_image_of_readings hmem hexists hspec hnil, hinj.ncard_image]
  exact ncard_eq_length hreadings fun l => Iff.rfl

end Readings

section Closes

variable {succ : V → List V} {root : V} {cap : Option Nat}

-- A closed stack read upwards: a path from the top of the given stack back to the
-- root.
theorem closes_iff_path (top : V) (below ext : List V) :
    Closes succ root cap (top :: below) (ext ++ top :: below) ↔
      (ext ++ top :: below).Nodup ∧
      (top :: ext.reverse ++ [root]).IsChain (fun a b => b ∈ succ a) ∧
      (ext = [] ∨ ∀ limit ∈ cap, (ext ++ top :: below).length ≤ limit) := by
  have hrev : (ext ++ [top]).IsChain (fun after before => after ∈ succ before) ↔
      (top :: ext.reverse).IsChain (fun a b => b ∈ succ a) := by
    rw [← List.isChain_reverse]
    simp
  have hlast : (top :: ext.reverse ++ [root]).IsChain (fun a b => b ∈ succ a) ↔
      (ext ++ [top]).IsChain (fun after before => after ∈ succ before) ∧
        ∃ last ∈ (ext ++ top :: below).head?, root ∈ succ last := by
    rw [List.isChain_append, ← hrev]
    have hhead : (top :: ext.reverse).getLast? = (ext ++ top :: below).head? := by
      cases ext with
      | nil => rfl
      | cons x ext => rw [List.reverse_cons, ← List.cons_append, List.getLast?_concat]; rfl
    rw [hhead]
    cases he : (ext ++ top :: below).head? with
    | none => simp at he
    | some last => simp
  constructor
  · intro h
    obtain ⟨ext', he, hchain⟩ := h.extends_stack
    obtain rfl := List.append_cancel_right he
    refine ⟨h.nodup, hlast.mpr ⟨hchain, h.closing⟩, h.capped.imp (fun he => ?_) id⟩
    simpa using he
  · rintro ⟨hn, hchain, hcap⟩
    obtain ⟨hchain, hclosing⟩ := hlast.mp hchain
    exact ⟨⟨ext, rfl, hchain⟩, hn, hclosing, hcap.imp (fun he => by simp [he]) id⟩

end Closes

end CycleEnum.Enumeration
