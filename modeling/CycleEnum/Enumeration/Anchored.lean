import CycleEnum.Enumeration.CycleLists
import Mathlib.Data.Set.Finite.List

namespace CycleEnum.Enumeration

variable {V : Type}

-- The simple cycles of `k` vertices along the arcs of a relation.
def cycles_of (R : V → V → Prop) (k : Nat) : Set (Cycle V) :=
  {c | c.Nodup ∧ c.length = k ∧ c.Chain R}

def Avoids (arcs : List (V × V)) (c : Cycle V) : Prop :=
  ∀ arc ∈ arcs, ¬Follows c arc.1 arc.2

-- The cycles through an arc that use none of the arcs before it.
def owned_cycles (R : V → V → Prop) (k : Nat) (before : List (V × V)) (arc : V × V) :
    Set (Cycle V) :=
  {c ∈ cycles_of R k | Follows c arc.1 arc.2 ∧ Avoids before c}

variable {R R' : V → V → Prop} {k : Nat}

theorem avoiding_cycles_congr {arcs arcs' : List (V × V)} (hk : 2 ≤ k)
    (h : ∀ a b, R a b ∧ (a, b) ∉ arcs ↔ R' a b ∧ (a, b) ∉ arcs') :
    {c ∈ cycles_of R k | Avoids arcs c} = {c ∈ cycles_of R' k | Avoids arcs' c} := by
  have hone : ∀ (R R' : V → V → Prop) (arcs arcs' : List (V × V)),
      (∀ a b, R a b ∧ (a, b) ∉ arcs → R' a b ∧ (a, b) ∉ arcs') →
      ∀ c ∈ cycles_of R k, Avoids arcs c → c ∈ cycles_of R' k ∧ Avoids arcs' c := by
    rintro R R' arcs arcs' h c ⟨hn, hlen, hchain⟩ havoid
    have hc : 2 ≤ c.length := hlen ▸ hk
    have hstep : ∀ a b, Follows c a b → R' a b ∧ (a, b) ∉ arcs' := fun a b hf =>
      h a b ⟨(chain_iff_follows R c hc).mp hchain a b hf, fun hm => havoid (a, b) hm hf⟩
    exact ⟨⟨hn, hlen, (chain_iff_follows R' c hc).mpr fun a b hf => (hstep a b hf).1⟩,
      fun arc harc hf => (hstep arc.1 arc.2 hf).2 harc⟩
  ext c
  exact ⟨fun hc => hone R R' arcs arcs' (fun a b => (h a b).mp) c hc.1 hc.2,
    fun hc => hone R' R arcs' arcs (fun a b => (h a b).mpr) c hc.1 hc.2⟩

-- Loops make no difference to the cycles of two vertices or more.
theorem cycles_of_congr (hk : 2 ≤ k) (h : ∀ a b, a ≠ b → (R a b ↔ R' a b)) :
    cycles_of R k = cycles_of R' k := by
  ext c
  refine and_congr_right fun hn => and_congr_right fun hlen => ?_
  have hc : 2 ≤ c.length := hlen ▸ hk
  rw [chain_iff_follows R c hc, chain_iff_follows R' c hc]
  refine forall_congr' fun a => forall_congr' fun b => imp_congr_right fun hf => ?_
  exact h a b (hf.ne hn)

-- Arcs into finitely many vertices make finitely many cycles of a length.
theorem cycles_of_finite {verts : List V} (hverts : ∀ a b, R a b → b ∈ verts) (hk : 2 ≤ k) :
    (cycles_of R k).Finite := by
  have : Finite {x // x ∈ verts} := (List.finite_toSet verts).to_subtype
  refine ((List.finite_length_eq {x // x ∈ verts} k).image
    fun l => (↑(l.map Subtype.val) : Cycle V)).subset ?_
  rintro c ⟨hn, hlen, hchain⟩
  have htwo : 2 ≤ c.length := hlen ▸ hk
  rw [chain_iff_follows R c htwo] at hchain
  induction c using Quot.inductionOn with
  | _ l =>
      have hl : ∀ x ∈ l, x ∈ verts := by
        intro x hx
        obtain ⟨a, hf⟩ := exists_follows htwo (show x ∈ (↑l : Cycle V) from hx)
        exact hverts a x (hchain a x hf)
      refine ⟨l.attachWith (· ∈ verts) hl, ?_, ?_⟩
      · rw [Set.mem_ofPred_eq, List.length_attachWith]
        exact hlen
      · change (↑((l.attachWith (· ∈ verts) hl).map Subtype.val) : Cycle V) = ↑l
        rw [List.attachWith_map_subtype_val]

-- A cycle avoids all arcs but the last, or is owned by it, or uses an earlier one.
theorem ncard_avoiding_concat (hfin : (cycles_of R k).Finite) (arcs : List (V × V)) (arc : V × V) :
    {c ∈ cycles_of R k | Avoids arcs c}.ncard =
      {c ∈ cycles_of R k | Avoids (arcs ++ [arc]) c}.ncard + (owned_cycles R k arcs arc).ncard := by
  rw [← Set.ncard_union_eq _ (hfin.subset fun _ h => h.1) (hfin.subset fun _ h => h.1)]
  · congr 1
    ext c
    constructor
    · rintro ⟨hc, havoid⟩
      by_cases hf : Follows c arc.1 arc.2
      · exact Or.inr ⟨hc, hf, havoid⟩
      · refine Or.inl ⟨hc, fun other ho => ?_⟩
        rcases List.mem_append.mp ho with ho | ho
        · exact havoid other ho
        · rwa [List.mem_singleton.mp ho]
    · rintro (⟨hc, havoid⟩ | ⟨hc, -, havoid⟩)
      · exact ⟨hc, fun other ho => havoid other (List.mem_append_left _ ho)⟩
      · exact ⟨hc, havoid⟩
  · refine Set.disjoint_left.mpr fun c hc howned => ?_
    exact hc.2 arc (by simp) howned.2.1

-- Every cycle that uses some of the arcs is owned by the first of these.
theorem ncard_avoiding (hfin : (cycles_of R k).Finite) (arcs : List (V × V)) :
    (cycles_of R k).ncard = {c ∈ cycles_of R k | Avoids arcs c}.ncard +
      (arcs.zipIdx.map fun arc => (owned_cycles R k (arcs.take arc.2) arc.1).ncard).sum := by
  induction arcs using List.reverseRecOn with
  | nil => simp [Avoids]
  | append_singleton arcs arc ih =>
      have hbefore : (arcs.zipIdx.map fun a =>
          (owned_cycles R k ((arcs ++ [arc]).take a.2) a.1).ncard) =
          arcs.zipIdx.map fun a => (owned_cycles R k (arcs.take a.2) a.1).ncard := by
        refine List.map_congr_left fun a ha => ?_
        have hlt := List.snd_lt_of_mem_zipIdx ha
        rw [List.take_append_of_le_length (by omega)]
      rw [ih, ncard_avoiding_concat hfin arcs arc, List.zipIdx_append, List.map_append,
        List.sum_append, hbefore]
      simp
      omega

-- The owner of a cycle is the first of the arcs that it uses.
theorem exists_unique_owner {arcs : List (V × V)} {c : Cycle V} (hc : c ∈ cycles_of R k)
    (huse : ∃ arc ∈ arcs, Follows c arc.1 arc.2) :
    ∃! id, ∃ arc, arcs[id]? = some arc ∧ c ∈ owned_cycles R k (arcs.take id) arc := by
  classical
  have hsome : ∃ id : Nat, ∃ arc : V × V, arcs[id]? = some arc ∧ Follows c arc.1 arc.2 := by
    obtain ⟨arc, hm, hf⟩ := huse
    obtain ⟨id, hid⟩ := List.mem_iff_getElem?.mp hm
    exact ⟨id, arc, hid, hf⟩
  obtain ⟨arc, hget, hf⟩ := Nat.find_spec hsome
  refine ⟨Nat.find hsome, ⟨arc, hget, hc, hf, fun before hm hb => ?_⟩, fun id howner => ?_⟩
  · obtain ⟨j, hj⟩ := List.mem_iff_getElem?.mp hm
    rw [List.getElem?_take] at hj
    split_ifs at hj with hlt
    exact Nat.find_min hsome hlt ⟨before, hj, hb⟩
  · obtain ⟨own, hown, -, hfollows, havoid⟩ := howner
    apply Nat.le_antisymm
    · by_contra hlt
      have hm : (arcs.take id)[Nat.find hsome]? = some arc := by
        rw [List.getElem?_take, if_pos (by omega), hget]
      exact havoid arc (List.mem_of_getElem? hm) hf
    · exact Nat.find_min' hsome ⟨own, hown, hfollows⟩

-- Deleting and inserting arcs changes the number of cycles by those the arcs own.
theorem ncard_changed (hk : 2 ≤ k) (hfin : (cycles_of R k).Finite) (hfin' : (cycles_of R' k).Finite)
    {deletions insertions : List (V × V)}
    (h : ∀ a b, R a b ∧ (a, b) ∉ deletions ↔ R' a b ∧ (a, b) ∉ insertions) :
    (cycles_of R' k).ncard + (deletions.zipIdx.map fun arc =>
        (owned_cycles R k (deletions.take arc.2) arc.1).ncard).sum =
      (cycles_of R k).ncard + (insertions.zipIdx.map fun arc =>
        (owned_cycles R' k (insertions.take arc.2) arc.1).ncard).sum := by
  have hbefore := ncard_avoiding hfin deletions
  have hafter := ncard_avoiding hfin' insertions
  rw [avoiding_cycles_congr hk h] at hbefore
  omega

section Closings

variable [DecidableEq V] {succ : V → List V} {cap : Option Nat}

-- The successors of a search that must not cross the arcs before its own.
def succ_avoiding (succ : V → List V) (before : List (V × V)) (a : V) : List V :=
  (succ a).filter fun b => (a, b) ∉ before

theorem mem_succ_avoiding {before : List (V × V)} {a b : V} :
    b ∈ succ_avoiding succ before a ↔ b ∈ succ a ∧ (a, b) ∉ before := by
  simp [succ_avoiding]

theorem owned_cycle_iff {before : List (V × V)} {u v : V} {rest : List V}
    (hlen : (u :: v :: rest).length = k) (harc : v ∈ succ u) (hown : (u, v) ∉ before) :
    (↑(u :: v :: rest) : Cycle V) ∈ owned_cycles (fun a b => b ∈ succ a) k before (u, v) ↔
      (u :: v :: rest).Nodup ∧
        (v :: rest ++ [u]).IsChain fun a b => b ∈ succ_avoiding succ before a := by
  have hc : 2 ≤ (↑(u :: v :: rest) : Cycle V).length := by
    rw [Cycle.length_coe]
    simp
  have hfirst : Follows (↑(u :: v :: rest) : Cycle V) u v := ⟨rest, rfl⟩
  constructor
  · rintro ⟨⟨hn, -, hchain⟩, -, havoid⟩
    have hn : (u :: v :: rest).Nodup := Cycle.nodup_coe_iff.mp hn
    rw [chain_iff_follows _ _ hc] at hchain
    refine ⟨hn, (rooted_chain_iff _ hn).mpr fun a b hf _ => ?_⟩
    exact mem_succ_avoiding.mpr ⟨hchain a b hf, fun hm => havoid (a, b) hm hf⟩
  · rintro ⟨hn, hchain⟩
    rw [rooted_chain_iff _ hn] at hchain
    have hall : ∀ a b, Follows (↑(u :: v :: rest) : Cycle V) a b →
        b ∈ succ a ∧ (a, b) ∉ before := by
      intro a b hf
      by_cases ha : a = u
      · subst ha
        rw [hf.unique (Cycle.nodup_coe_iff.mpr hn) hfirst]
        exact ⟨harc, hown⟩
      · exact mem_succ_avoiding.mp (hchain a b hf ha)
    exact ⟨⟨hn, hlen, (chain_iff_follows _ _ hc).mpr fun a b hf => (hall a b hf).1⟩, hfirst,
      fun arc hm hf => (hall arc.1 arc.2 hf).2 hm⟩

theorem mem_anchored_readings {before : List (V × V)} {u v : V} {verts : List V} (fuel : Nat)
    (hne : v ≠ u) (harc : v ∈ succ u) (hown : (u, v) ∉ before)
    (hverts : ∀ a, ∀ b ∈ succ a, b ∈ verts) (hfuel : verts.length ≤ fuel)
    (hcap : ∀ limit ∈ cap, k ≤ limit) (r : V) (l : List V) :
    r :: l ∈ ((closings (succ_avoiding succ before) u cap fuel [v, u]).filter
        (·.length = k)).map List.reverse ↔
      (↑(r :: l) : Cycle V) ∈ owned_cycles (fun a b => b ∈ succ a) k before (u, v) ∧ r = u := by
  have hstack : [v, u].Nodup := by simpa using hne
  have hpath : ∀ rest : List V, Closes (succ_avoiding succ before) u cap [v, u] (rest.reverse ++ [v, u]) ↔
      ((u :: v :: rest).Nodup ∧ (v :: rest ++ [u]).IsChain fun a b => b ∈ succ_avoiding succ before a) ∧
        (rest = [] ∨ ∀ limit ∈ cap, (u :: v :: rest).length ≤ limit) := by
    intro rest
    have hnodup : (rest.reverse ++ [v, u]).Nodup ↔ (u :: v :: rest).Nodup := by
      rw [← List.nodup_reverse]
      simp
    have hlen : (rest.reverse ++ [v, u]).length = (u :: v :: rest).length := by simp
    rw [closes_iff_path, hnodup, List.reverse_reverse, hlen, List.reverse_eq_nil_iff, and_assoc]
  simp only [List.mem_map, List.mem_filter, decide_eq_true_eq]
  constructor
  · rintro ⟨closed, ⟨hm, hlen⟩, hrev⟩
    have hcloses := closes_of_mem_closings fuel [v, u] closed hstack hm
    obtain ⟨ext, rfl, -⟩ := hcloses.extends_stack
    have hread : (ext ++ [v, u]).reverse = u :: v :: ext.reverse := by simp
    obtain ⟨rfl, rfl⟩ := List.cons.inj (hread.symm.trans hrev)
    have hlen : (u :: v :: ext.reverse).length = k := by simpa using hlen
    refine ⟨(owned_cycle_iff hlen harc hown).mpr ((hpath ext.reverse).mp ?_).1, rfl⟩
    simpa using hcloses
  · rintro ⟨hc, rfl⟩
    obtain ⟨rest, rfl⟩ : ∃ rest, l = v :: rest := by
      obtain ⟨rest, he⟩ := hc.2.1
      exact ⟨rest, rooted_inj (Cycle.nodup_coe_iff.mp hc.1.1) he⟩
    have hlen : (r :: v :: rest).length = k := hc.1.2.1
    have hcloses := (hpath rest).mpr ⟨(owned_cycle_iff hlen harc hown).mp hc, Or.inr (hlen ▸ hcap)⟩
    refine ⟨rest.reverse ++ [v, r], ⟨mem_closings_of_closes fuel _ _ (by simp) hcloses ?_, ?_⟩, by simp⟩
    · -- every vertex of the cycle is the target of an arc
      have hsub : ∀ x ∈ r :: v :: rest, x ∈ verts := by
        intro x hx
        have htwo : 2 ≤ (↑(r :: v :: rest) : Cycle V).length := by
          rw [Cycle.length_coe]
          simp
        obtain ⟨a, hf⟩ := exists_follows htwo (show x ∈ (↑(r :: v :: rest) : Cycle V) from hx)
        exact hverts a x ((chain_iff_follows _ _ htwo).mp hc.1.2.2 a x hf)
      have hle := ((Cycle.nodup_coe_iff.mp hc.1.1).subperm hsub).length_le
      simp only [List.length_append, List.length_reverse, List.length_cons, List.length_nil] at hle ⊢
      omega
    · simpa using hlen

-- The search anchored at an arc lists the cycles that the arc owns.
theorem ncard_owned {before : List (V × V)} {u v : V} {verts : List V} (fuel : Nat)
    (hsucc : ∀ a, (succ a).Nodup) (hne : v ≠ u) (harc : v ∈ succ u) (hown : (u, v) ∉ before)
    (hverts : ∀ a, ∀ b ∈ succ a, b ∈ verts) (hfuel : verts.length ≤ fuel)
    (hcap : ∀ limit ∈ cap, k ≤ limit) :
    (owned_cycles (fun a b => b ∈ succ a) k before (u, v)).ncard =
      (closings (succ_avoiding succ before) u cap fuel [v, u]).countP (·.length = k) := by
  have hclosings : (closings (succ_avoiding succ before) u cap fuel [v, u]).Nodup :=
    closings_nodup (fun a => (hsucc a).filter _) fuel [v, u] (by simpa using hne) (by simp)
  have hroot : ∀ c ∈ owned_cycles (fun a b => b ∈ succ a) k before (u, v), u ∈ c :=
    fun c hc => hc.2.1.mem.1
  rw [List.countP_eq_length_filter, ← List.length_map]
  refine ncard_eq_of_readings ((hclosings.filter _).map List.reverse_injective)
    (fun c hc => hc.1.1) (fun c r (h : r = u ∧ u ∈ c) => h.1 ▸ h.2)
    (fun c hc => ⟨u, rfl, hroot c hc⟩) (fun c _ r r' h h' => h.1.trans h'.1.symm) (fun r l => ?_) ?_
  · rw [mem_anchored_readings fuel hne harc hown hverts hfuel hcap]
    constructor
    · rintro ⟨hc, rfl⟩
      exact ⟨hc, rfl, hroot _ hc⟩
    · rintro ⟨hc, rfl, -⟩
      exact ⟨hc, rfl⟩
  · intro hnil
    obtain ⟨closed, hc, hrev⟩ := List.mem_map.mp hnil
    obtain rfl := List.reverse_eq_nil_iff.mp hrev
    have hsuffix := suffix_of_mem_closings fuel _ _ (List.mem_filter.mp hc).1
    simpa using hsuffix.length_le

end Closings

end CycleEnum.Enumeration
