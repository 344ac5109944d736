import CycleEnum.Enumeration.CycleLists

namespace CycleEnum.Enumeration

variable {V : Type}

-- The paths of `k` distinct vertices from one vertex to another along the arcs of a
-- relation.
def simple_paths (R : V → V → Prop) (source target : V) (k : Nat) : Set (List V) :=
  {path | path.Nodup ∧ path.length = k ∧ path.head? = some source ∧
    path.getLast? = some target ∧ path.IsChain R}

-- The same from a vertex to another or back to itself: no vertex comes twice but for this.
def ways (R : V → V → Prop) (source target : V) (k : Nat) : Set (List V) :=
  {way | ∃ middle, source :: middle ++ [target] = way ∧ way.length = k ∧
    (source :: middle).Nodup ∧ target ∉ middle ∧ way.IsChain R}

theorem ways_of_ne (R : V → V → Prop) {source target : V} (hne : source ≠ target) (k : Nat) :
    ways R source target k = simple_paths R source target k := by
  ext way
  constructor
  · intro hway
    obtain ⟨middle, rfl, hlen, hn, hmiddle, hchain⟩ := hway
    refine ⟨?_, hlen, rfl, List.getLast?_concat, hchain⟩
    refine List.nodup_append.mpr ⟨hn, List.nodup_singleton _, fun a ha b hb => ?_⟩
    rw [List.mem_singleton.mp hb]
    rcases List.mem_cons.mp ha with rfl | ha
    · exact hne
    · exact ne_of_mem_of_not_mem ha hmiddle
  · intro hpath
    obtain ⟨hn, hlen, hhead, hlast, hchain⟩ := hpath
    cases way with
    | nil => cases hhead
    | cons first rest =>
        obtain rfl : first = source := Option.some.inj hhead
        rcases List.eq_nil_or_concat rest with rfl | ⟨middle, last, rfl⟩
        · exact absurd (Option.some.inj hlast) hne
        · rw [List.concat_eq_append, ← List.cons_append] at hn hlen hlast hchain ⊢
          obtain rfl : last = target := by
            rw [List.getLast?_concat] at hlast
            exact Option.some.inj hlast
          have hparts := List.nodup_append.mp hn
          refine ⟨middle, rfl, hlen, hparts.1, fun hm => ?_, hchain⟩
          exact hparts.2.2 last (List.mem_cons_of_mem _ hm) last List.mem_cons_self rfl

theorem mem_of_chain {R : V → V → Prop} {verts rest : List V} {first : V}
    (hverts : ∀ a b, R a b → b ∈ verts) (hchain : (first :: rest).IsChain R) : rest ⊆ verts := by
  induction rest generalizing first with
  | nil => exact List.nil_subset verts
  | cons second rest ih =>
      obtain ⟨harc, hchain⟩ := List.isChain_cons_cons.mp hchain
      exact List.cons_subset.mpr ⟨hverts first second harc, ih hchain⟩

section Closings

variable [DecidableEq V] {succ : V → List V} {cap : Option Nat} {u v : V} {k : Nat}

-- A closed stack over `u`, read upwards from above `u` and ended by `u`.
def path_of_closed (closed : List V) : List V := closed.reverse.rotate 1

omit [DecidableEq V] in
theorem path_of_closed_append (ext : List V) :
    path_of_closed (ext ++ [v, u]) = v :: ext.reverse ++ [u] := by
  simp [path_of_closed]

omit [DecidableEq V] in
theorem path_of_closed_injective : Function.Injective (path_of_closed (V := V)) :=
  (List.rotate_injective 1).comp List.reverse_injective

omit [DecidableEq V] in
theorem closed_path_iff (hcap : ∀ limit ∈ cap, k ≤ limit) (ext : List V)
    (hlen : (ext ++ [v, u]).length = k) :
    Closes succ u cap [v, u] (ext ++ [v, u]) ↔
      path_of_closed (ext ++ [v, u]) ∈ simple_paths (fun a b => b ∈ succ a) v u k := by
  have hperm : (path_of_closed (ext ++ [v, u])).Perm (ext ++ [v, u]) :=
    (List.rotate_perm _ 1).trans (List.reverse_perm _)
  have hends : (path_of_closed (ext ++ [v, u])).head? = some v ∧
      (path_of_closed (ext ++ [v, u])).getLast? = some u := by
    rw [path_of_closed_append]
    exact ⟨rfl, List.getLast?_concat⟩
  rw [closes_iff_path, simple_paths, Set.mem_ofPred_eq, hperm.nodup_iff, hperm.length_eq,
    path_of_closed_append]
  rw [path_of_closed_append] at hends
  constructor
  · rintro ⟨hn, hchain, -⟩
    exact ⟨hn, hlen, hends.1, hends.2, hchain⟩
  · rintro ⟨hn, -, -, -, hchain⟩
    exact ⟨hn, hchain, Or.inr (hlen ▸ hcap)⟩

omit [DecidableEq V] in
theorem exists_closed (hne : v ≠ u) {path : List V} (hhead : path.head? = some v)
    (hlast : path.getLast? = some u) : ∃ ext, path_of_closed (ext ++ [v, u]) = path := by
  cases path with
  | nil => cases hhead
  | cons first rest =>
      obtain rfl : first = v := Option.some.inj hhead
      rcases List.eq_nil_or_concat rest with rfl | ⟨middle, last, rfl⟩
      · exact absurd (Option.some.inj hlast) hne
      · rw [List.concat_eq_append, ← List.cons_append, List.getLast?_concat] at hlast
        obtain rfl : last = u := Option.some.inj hlast
        refine ⟨middle.reverse, ?_⟩
        rw [path_of_closed_append, List.reverse_reverse, List.concat_eq_append]
        rfl

-- The search over two ends lists the simple paths between them.
theorem mem_simple_paths_iff {verts : List V} (fuel : Nat) (hne : v ≠ u)
    (hverts : ∀ a, ∀ b ∈ succ a, b ∈ verts) (hfuel : verts.length ≤ fuel)
    (hcap : ∀ limit ∈ cap, k ≤ limit) (path : List V) :
    path ∈ simple_paths (fun a b => b ∈ succ a) v u k ↔
      path ∈ ((closings succ u cap fuel [v, u]).filter (·.length = k)).map path_of_closed := by
  have hstack : [v, u].Nodup := by simpa using hne
  simp only [List.mem_map, List.mem_filter, decide_eq_true_eq]
  constructor
  · intro hp
    obtain ⟨ext, rfl⟩ := exists_closed hne hp.2.2.1 hp.2.2.2.1
    have hlen : (ext ++ [v, u]).length = k := by
      rw [← hp.2.1, path_of_closed, List.length_rotate, List.length_reverse]
    have hcloses := (closed_path_iff hcap ext hlen).mpr hp
    refine ⟨_, ⟨mem_closings_of_closes fuel _ _ (by simp) hcloses ?_, hlen⟩, rfl⟩
    -- every vertex of the path but its first is a successor
    obtain ⟨hn, -, -, -, hchain⟩ := hp
    rw [path_of_closed_append, List.cons_append] at hn hchain
    have hle := ((List.nodup_cons.mp hn).2.subperm
      (mem_of_chain (fun a b hb => hverts a b hb) hchain)).length_le
    simp only [List.length_append, List.length_reverse, List.length_cons, List.length_nil]
      at hle ⊢
    omega
  · rintro ⟨closed, ⟨hm, hlen⟩, rfl⟩
    have hcloses := closes_of_mem_closings fuel [v, u] closed hstack hm
    obtain ⟨ext, rfl, -⟩ := hcloses.extends_stack
    exact (closed_path_iff hcap ext hlen).mp hcloses

theorem simple_paths_finite {verts : List V} (hne : v ≠ u) (hverts : ∀ a, ∀ b ∈ succ a, b ∈ verts) :
    (simple_paths (fun a b => b ∈ succ a) v u k).Finite :=
  (List.finite_toSet _).subset fun path hpath =>
    (@mem_simple_paths_iff V _ succ none u v k verts verts.length hne hverts le_rfl (by simp)
      path).mp hpath

theorem ncard_simple_paths {verts : List V} (fuel : Nat) (hsucc : ∀ a, (succ a).Nodup)
    (hne : v ≠ u) (hverts : ∀ a, ∀ b ∈ succ a, b ∈ verts)
    (hfuel : verts.length ≤ fuel) (hcap : ∀ limit ∈ cap, k ≤ limit) :
    (simple_paths (fun a b => b ∈ succ a) v u k).ncard =
      (closings succ u cap fuel [v, u]).countP (·.length = k) := by
  have hstack : [v, u].Nodup := by simpa using hne
  have hnodup : (((closings succ u cap fuel [v, u]).filter (·.length = k)).map
      path_of_closed).Nodup :=
    ((closings_nodup hsucc fuel [v, u] hstack (by simp)).filter _).map path_of_closed_injective
  rw [ncard_eq_length hnodup (mem_simple_paths_iff fuel hne hverts hfuel hcap), List.length_map,
    List.countP_eq_length_filter]

-- A second root at the bottom lengthens every closing by one.
theorem closings_over_root {root : V} (limit fuel : Nat) (stack : List V) (hroot : root ∈ stack) :
    closings succ root (some (limit + 1)) fuel (stack ++ [root]) =
      (closings succ root (some limit) fuel stack).map (· ++ [root]) := by
  induction fuel generalizing stack with
  | zero => rfl
  | succ fuel ih =>
      cases stack with
      | nil => cases hroot
      | cons current below =>
          rw [List.cons_append, closings, closings, List.map_flatMap]
          refine List.flatMap_congr fun next _ => ?_
          unfold branch
          by_cases hr : next = root
          · rw [if_pos hr, if_pos hr]
            rfl
          have hmem : next ∈ current :: (below ++ [root]) ↔ next ∈ current :: below := by
            rw [← List.cons_append, List.mem_append, List.mem_singleton, or_iff_left hr]
          have hcut : cut (some (limit + 1)) (current :: (below ++ [root])).length =
              cut (some limit) (current :: below).length := by
            simp [cut]
          rw [if_neg hr, if_neg hr, hcut]
          simp only [hmem]
          split_ifs with hm hc
          · rfl
          · rfl
          · rw [← ih (next :: current :: below) (List.mem_cons_of_mem _ hroot)]
            rfl

-- The search from a vertex back to it lists the ways round.
theorem ncard_ways_round {verts : List V} {limit : Nat} (fuel : Nat) (hsucc : ∀ a, (succ a).Nodup)
    (hverts : ∀ a, ∀ b ∈ succ a, b ∈ verts) (hfuel : verts.length ≤ fuel) (hk : k ≤ limit + 1) :
    (ways (fun a b => b ∈ succ a) v v k).ncard =
      (closings succ v (some (limit + 1)) fuel [v, v]).countP (·.length = k) := by
  have hstack : [v].Nodup := List.nodup_singleton v
  have hread : Function.Injective fun closed : List V => closed.reverse ++ [v] :=
    (List.append_left_injective [v]).comp List.reverse_injective
  have hmem : ∀ way, way ∈ ways (fun a b => b ∈ succ a) v v k ↔
      way ∈ ((closings succ v (some limit) fuel [v]).filter (·.length + 1 = k)).map
        fun closed => closed.reverse ++ [v] := by
    intro way
    simp only [List.mem_map, List.mem_filter, decide_eq_true_eq]
    constructor
    · intro hway
      obtain ⟨middle, rfl, hlen, hn, -, hchain⟩ := hway
      have hlength : (middle.reverse ++ [v]).length + 1 = k := by
        simpa using hlen
      have hcloses : Closes succ v (some limit) [v] (middle.reverse ++ [v]) := by
        refine (closes_iff_path v [] middle.reverse).mpr ⟨?_, ?_, Or.inr fun _ hlimit => ?_⟩
        · rw [← List.reverse_cons, List.nodup_reverse]
          exact hn
        · rwa [List.reverse_reverse]
        · rw [← Option.mem_some.mp hlimit]
          omega
      refine ⟨_, ⟨mem_closings_of_closes fuel _ _ List.mem_cons_self hcloses ?_, hlength⟩, ?_⟩
      · -- every vertex on the way is a successor
        have hsub : middle ++ [v] ⊆ verts := mem_of_chain (fun a b hb => hverts a b hb) hchain
        have hnodup : (middle ++ [v]).Nodup := (List.perm_append_singleton v middle).nodup_iff.mpr hn
        have hle := (hnodup.subperm hsub).length_le
        simp only [List.length_append, List.length_reverse, List.length_cons, List.length_nil]
          at hle ⊢
        omega
      · rw [List.reverse_append, List.reverse_reverse]
        rfl
    · intro hfound
      obtain ⟨closed, ⟨hm, hlen⟩, rfl⟩ := hfound
      have hcloses := closes_of_mem_closings fuel [v] closed hstack hm
      obtain ⟨ext, rfl, -⟩ := hcloses.extends_stack
      obtain ⟨hn, hchain, -⟩ := (closes_iff_path v [] ext).mp hcloses
      have hnodup : (v :: ext.reverse).Nodup := by
        rw [← List.nodup_reverse, List.reverse_cons, List.reverse_reverse]
        exact hn
      have hway : (ext ++ [v]).reverse ++ [v] = v :: ext.reverse ++ [v] := by simp
      refine ⟨ext.reverse, hway.symm, ?_, hnodup, (List.nodup_cons.mp hnodup).1, ?_⟩
      · rw [List.length_append, List.length_reverse, List.length_singleton]
        exact hlen
      · rw [hway]
        exact hchain
  have hclosings : (closings succ v (some limit) fuel [v]).Nodup :=
    closings_nodup hsucc fuel [v] hstack List.mem_cons_self
  have hnodup := (hclosings.filter (·.length + 1 = k)).map hread
  rw [ncard_eq_length hnodup hmem, List.length_map, ← List.countP_eq_length_filter,
    show [v, v] = [v] ++ [v] from rfl, closings_over_root limit fuel [v] List.mem_cons_self,
    List.countP_map]
  refine List.countP_congr fun closed _ => ?_
  simp

-- The search over two ends, which may be one, lists the ways between them.
theorem ncard_ways {verts : List V} {limit : Nat} (fuel : Nat) (hsucc : ∀ a, (succ a).Nodup)
    (hverts : ∀ a, ∀ b ∈ succ a, b ∈ verts) (hfuel : verts.length ≤ fuel) (hlimit : 0 < limit)
    (hk : k ≤ limit) :
    (ways (fun a b => b ∈ succ a) v u k).ncard =
      (closings succ u (some limit) fuel [v, u]).countP (·.length = k) := by
  by_cases hne : v = u
  · subst hne
    obtain ⟨limit, rfl⟩ := Nat.exists_eq_add_of_lt hlimit
    rw [Nat.zero_add] at hk ⊢
    exact ncard_ways_round fuel hsucc hverts hfuel hk
  · rw [ways_of_ne _ hne]
    exact ncard_simple_paths fuel hsucc hne hverts hfuel (by simpa using hk)

end Closings

end CycleEnum.Enumeration
