import CycleEnum.Enumeration.Anchored
import Mathlib.Data.List.Forall2

namespace CycleEnum.Enumeration

variable {V W : Type}

section Maps

variable {R : V → V → Prop} {R' : W → W → Prop} {f : V → W} {g : W → V} {k : Nat}

theorem cycle_map_map {c : Cycle V} (h : ∀ a ∈ c, g (f a) = a) : (c.map f).map g = c := by
  induction c using Quot.inductionOn with
  | _ l =>
      refine congrArg (fun l : List V => (↑l : Cycle V)) ?_
      rw [List.map_map]
      exact (List.map_congr_left h).trans (List.map_id l)

-- Every vertex of a cycle has an arc that leaves it.
theorem exists_arc_of_mem (hk : 2 ≤ k) {c : Cycle V} (hc : c ∈ cycles_of R k) {a : V} (ha : a ∈ c) :
    ∃ b, R a b := by
  obtain ⟨-, hlength, hchain⟩ := hc
  have htwo : 2 ≤ c.length := by omega
  obtain ⟨b, hab⟩ := exists_follower htwo ha
  exact ⟨b, (chain_iff_follows R c htwo).mp hchain a b hab⟩

theorem cycles_of_maps_to (hk : 2 ≤ k) (h : ∀ a b, R a b → R' (f a) (f b) ∧ g (f a) = a) :
    Set.MapsTo (Cycle.map f) (cycles_of R k) (cycles_of R' k) := by
  intro c hc
  have hinverse : ∀ a ∈ c, g (f a) = a := fun a ha => by
    obtain ⟨b, hab⟩ := exists_arc_of_mem hk hc ha
    exact (h a b hab).2
  obtain ⟨hnodup, hlength, hchain⟩ := hc
  refine ⟨?_, ?_, (Cycle.chain_map f).mpr (hchain.imp fun a b hab => (h a b hab).1)⟩
  · induction c using Quot.inductionOn with
    | _ l =>
        refine Cycle.nodup_coe_iff.mpr ((Cycle.nodup_coe_iff.mp hnodup).map_on fun a ha b hb heq => ?_)
        rw [← hinverse a ha, heq, hinverse b hb]
  · induction c using Quot.inductionOn with
    | _ l => exact (List.length_map f).trans hlength

theorem cycles_of_bij_on (hk : 2 ≤ k) (h : ∀ a b, R a b → R' (f a) (f b) ∧ g (f a) = a)
    (h' : ∀ x y, R' x y → R (g x) (g y) ∧ f (g x) = x) :
    Set.BijOn (Cycle.map f) (cycles_of R k) (cycles_of R' k) := by
  refine Set.InvOn.bijOn ⟨fun c hc => ?_, fun c hc => ?_⟩
    (cycles_of_maps_to hk h) (cycles_of_maps_to hk h')
  · refine cycle_map_map fun a ha => ?_
    obtain ⟨b, hab⟩ := exists_arc_of_mem hk hc ha
    exact (h a b hab).2
  · refine cycle_map_map fun x hx => ?_
    obtain ⟨y, hxy⟩ := exists_arc_of_mem hk hc hx
    exact (h' x y hxy).2

end Maps

section Anchored

variable {R : V → V → Prop} {u v : V} {k : Nat}

-- The arcs of a cycle that leaves `u` towards `v`.
def AnchoredArc (R : V → V → Prop) (u v a b : V) : Prop := a = u ∧ b = v ∨ a ≠ u ∧ R a b

def anchored_cycles (R : V → V → Prop) (u v : V) (k : Nat) : Set (Cycle V) :=
  {c ∈ cycles_of (AnchoredArc R u v) k | u ∈ c}

theorem mem_anchored_cycles (hk : 2 ≤ k) {c : Cycle V} : c ∈ anchored_cycles R u v k ↔
    (c.Nodup ∧ c.length = k) ∧ Follows c u v ∧ ∀ a b, Follows c a b → a ≠ u → R a b := by
  constructor
  · rintro ⟨⟨hnodup, rfl, hchain⟩, hu⟩
    rw [chain_iff_follows _ _ hk] at hchain
    obtain ⟨b, hub⟩ := exists_follower hk hu
    refine ⟨⟨hnodup, rfl⟩, ?_, fun a b hab hne => ?_⟩
    · rcases hchain u b hub with ⟨-, rfl⟩ | ⟨hne, -⟩
      · exact hub
      · exact absurd rfl hne
    · exact ((hchain a b hab).resolve_left fun heq => hne heq.1).2
  · rintro ⟨⟨hnodup, rfl⟩, hfirst, hothers⟩
    refine ⟨⟨hnodup, rfl, (chain_iff_follows _ _ hk).mpr fun a b hab => ?_⟩, hfirst.mem.1⟩
    by_cases hau : a = u
    · subst hau
      exact Or.inl ⟨rfl, hab.unique hnodup hfirst⟩
    · exact Or.inr ⟨hau, hothers a b hab hau⟩

theorem anchored_cycles_bij_on {R' : W → W → Prop} {f : V → W} {g : W → V} (hk : 2 ≤ k)
    (h : ∀ a b, AnchoredArc R u v a b → AnchoredArc R' (f u) (f v) (f a) (f b) ∧ g (f a) = a)
    (h' : ∀ x y, AnchoredArc R' (f u) (f v) x y → AnchoredArc R u v (g x) (g y) ∧ f (g x) = x) :
    Set.BijOn (Cycle.map f) (anchored_cycles R u v k) (anchored_cycles R' (f u) (f v) k) := by
  obtain ⟨hmaps, hinj, hsurj⟩ := cycles_of_bij_on hk h h'
  refine ⟨fun c hc => ⟨hmaps hc.1, ?_⟩, hinj.mono fun c hc => hc.1, fun c' hc' => ?_⟩
  · exact Cycle.mem_map.mpr ⟨u, hc.2, rfl⟩
  · obtain ⟨c, hc, rfl⟩ := hsurj hc'.1
    refine ⟨c, ⟨hc, ?_⟩, rfl⟩
    obtain ⟨a, ha, heq⟩ := Cycle.mem_map.mp hc'.2
    obtain ⟨b, hab⟩ := exists_arc_of_mem hk hc ha
    -- `u` leaves along its own arc, so that `g` leads back to it
    have hau : a = u := by
      rw [← (h a b hab).2, heq, (h u v (Or.inl ⟨rfl, rfl⟩)).2]
    exact hau ▸ ha

end Anchored

section Pairs

variable {ι κ α β : Type} {A : ι → Set α} {B : κ → Set β} {φ : ι → κ} {F : α → β}

-- Counting pairs whose second part is counted for each first part.
theorem ncard_pairs
    (hinj : ∀ i j, (A i).Nonempty → (A j).Nonempty → φ i = φ j → i = j)
    (hbij : ∀ i, (A i).Nonempty → Set.BijOn F (A i) (B (φ i)))
    (hrange : ∀ o, (B o).Nonempty → ∃ i, (A i).Nonempty ∧ φ i = o) :
    {found : ι × α | found.2 ∈ A found.1}.ncard = {found : κ × β | found.2 ∈ B found.1}.ncard := by
  refine Set.BijOn.ncard_eq (f := fun found => (φ found.1, F found.2)) ⟨?_, ?_, ?_⟩
  · rintro ⟨i, a⟩ ha
    exact (hbij i ⟨a, ha⟩).mapsTo ha
  · rintro ⟨i, a⟩ ha ⟨j, b⟩ hb heq
    obtain ⟨hφ, hF⟩ := Prod.mk.inj heq
    obtain rfl := hinj i j ⟨a, ha⟩ ⟨b, hb⟩ hφ
    exact Prod.ext rfl ((hbij i ⟨a, ha⟩).injOn ha hb hF)
  · rintro ⟨o, b⟩ hb
    obtain ⟨i, hi, rfl⟩ := hrange o ⟨b, hb⟩
    obtain ⟨a, ha, rfl⟩ := (hbij i hi).surjOn hb
    exact ⟨(i, a), ha, rfl⟩

end Pairs

-- The first of a pair is the item that it stands beside.
theorem forall₂_zip_self {R : V → W → V → Prop} {xs : List V} {ys : List W}
    (h : xs.length = ys.length) :
    List.Forall₂ (fun pair x => R pair.1 pair.2 x) (xs.zip ys) xs ↔
      List.Forall₂ (fun x y => R x y x) xs ys := by
  induction xs generalizing ys with
  | nil =>
      obtain rfl := List.eq_nil_of_length_eq_zero h.symm
      simp
  | cons x xs ih =>
      cases ys with
      | nil => cases h
      | cons y ys =>
          rw [List.zip_cons_cons, List.forall₂_cons, List.forall₂_cons,
            ih (Nat.succ.inj h)]

end CycleEnum.Enumeration
