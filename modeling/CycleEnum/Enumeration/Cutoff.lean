import CycleEnum.Enumeration.Closings

namespace CycleEnum.Enumeration

variable {V : Type} [DecidableEq V]

-- The ways to extend a stack of distinct vertices by arcs of `succ` until it has
-- `cutoff` vertices, in the order of the search for its closings.
def cutoff_paths (succ : V → List V) (cap : Option Nat) (cutoff : Nat) : Nat → List V → List (List V)
  | 0, _ => []
  | _ + 1, [] => []
  | fuel + 1, current :: below =>
      if (current :: below).length = cutoff then [current :: below]
      else (succ current).flatMap fun next =>
        if next ∈ current :: below then []
        else if cut cap (current :: below).length then []
        else cutoff_paths succ cap cutoff fuel (next :: current :: below)

-- The same without the search order.
structure ReachesCutoff (succ : V → List V) (cap : Option Nat) (cutoff : Nat) (stack path : List V) :
    Prop where
  extends_stack : ∃ ext, path = ext ++ stack ∧
    (ext ++ stack.take 1).IsChain fun after before => after ∈ succ before
  nodup : path.Nodup
  length_eq : path.length = cutoff
  capped : path = stack ∨ ∀ limit ∈ cap, cutoff ≤ limit

variable {succ : V → List V} {cap : Option Nat} {cutoff : Nat}

theorem reaches_of_mem_cutoff_paths (fuel : Nat) (stack path : List V) (hn : stack.Nodup)
    (hm : path ∈ cutoff_paths succ cap cutoff fuel stack) :
    ReachesCutoff succ cap cutoff stack path := by
  induction fuel generalizing stack with
  | zero => cases hm
  | succ fuel ih =>
      cases stack with
      | nil => cases hm
      | cons current below =>
          by_cases hlen : (current :: below).length = cutoff
          · rw [cutoff_paths, if_pos hlen] at hm
            obtain rfl := List.mem_singleton.mp hm
            exact ⟨⟨[], rfl, by simp⟩, hn, hlen, Or.inl rfl⟩
          · rw [cutoff_paths, if_neg hlen] at hm
            obtain ⟨next, hnext, hm⟩ := List.mem_flatMap.mp hm
            split_ifs at hm with hmem hcut
            · cases hm
            · cases hm
            · have hstep := ih _ (List.nodup_cons.mpr ⟨hmem, hn⟩) hm
              obtain ⟨ext, he, hchain⟩ := hstep.extends_stack
              refine ⟨⟨ext ++ [next], by simp [he], ?_⟩, hstep.nodup, hstep.length_eq, Or.inr ?_⟩
              · simp only [List.take_succ_cons, List.take_zero, List.append_assoc] at hchain ⊢
                exact List.isChain_split.mpr ⟨hchain, by simpa using hnext⟩
              · rcases hstep.capped with rfl | hle
                · rw [← hstep.length_eq]
                  exact (cut_eq_false_iff cap _).mp (Bool.eq_false_iff.mpr hcut)
                · exact hle

theorem mem_cutoff_paths_of_reaches (fuel : Nat) (stack path : List V) (hne : stack ≠ [])
    (h : ReachesCutoff succ cap cutoff stack path) (hfuel : path.length < stack.length + fuel) :
    path ∈ cutoff_paths succ cap cutoff fuel stack := by
  induction fuel generalizing stack with
  | zero =>
      obtain ⟨ext, rfl, -⟩ := h.extends_stack
      simp only [List.length_append] at hfuel
      omega
  | succ fuel ih =>
      obtain ⟨current, below, rfl⟩ := List.exists_cons_of_ne_nil hne
      obtain ⟨ext, rfl, hchain⟩ := h.extends_stack
      have hlength := h.length_eq
      rcases List.eq_nil_or_concat ext with rfl | ⟨ext, next, rfl⟩
      · rw [List.nil_append] at hlength ⊢
        rw [cutoff_paths, if_pos hlength]
        exact List.mem_singleton.mpr rfl
      · have happ : ext.concat next ++ current :: below = ext ++ next :: current :: below := by simp
        rw [happ] at ih h hfuel hlength ⊢
        simp only [List.concat_eq_append, List.append_assoc, List.singleton_append,
          List.take_succ_cons, List.take_zero] at hchain
        obtain ⟨hchain, hstep⟩ := List.isChain_split.mp hchain
        have hnext : next ∉ current :: below := (List.nodup_cons.mp h.nodup.of_append_right).1
        have harc : next ∈ succ current := (List.isChain_cons_cons.mp hstep).1
        have hlt : (current :: below).length < cutoff := by
          rw [← hlength]
          simp only [List.length_append, List.length_cons]
          omega
        have hle : ∀ limit ∈ cap, cutoff ≤ limit := by
          rcases h.capped with he | hle
          · rw [← he, hlength] at hlt
            omega
          · exact hle
        have hcut : cut cap (current :: below).length = false :=
          (cut_eq_false_iff cap _).mpr fun limit hl => hlt.trans_le (hle limit hl)
        rw [cutoff_paths, if_neg (by omega)]
        refine List.mem_flatMap.mpr ⟨next, harc, ?_⟩
        rw [if_neg hnext, if_neg (by rw [hcut]; exact Bool.false_ne_true)]
        apply ih _ (by simp)
        · exact ⟨⟨ext, rfl, hchain⟩, h.nodup, h.length_eq, Or.inr hle⟩
        · simp only [List.length_append, List.length_cons] at hfuel ⊢
          omega

theorem suffix_of_mem_cutoff_paths (fuel : Nat) (stack path : List V) (hn : stack.Nodup)
    (hm : path ∈ cutoff_paths succ cap cutoff fuel stack) : stack <:+ path := by
  obtain ⟨ext, rfl, -⟩ := (reaches_of_mem_cutoff_paths fuel stack path hn hm).extends_stack
  exact List.suffix_append ext stack

theorem cutoff_paths_nodup (hsucc : ∀ v, (succ v).Nodup) (fuel : Nat) (stack : List V)
    (hn : stack.Nodup) : (cutoff_paths succ cap cutoff fuel stack).Nodup := by
  induction fuel generalizing stack with
  | zero => exact List.nodup_nil
  | succ fuel ih =>
      cases stack with
      | nil => exact List.nodup_nil
      | cons current below =>
          by_cases hlen : (current :: below).length = cutoff
          · rw [cutoff_paths, if_pos hlen]
            exact List.nodup_singleton _
          rw [cutoff_paths, if_neg hlen]
          refine List.nodup_flatMap.mpr ⟨fun next _ => ?_, (hsucc current).imp fun {a b} hne => ?_⟩
          · split_ifs with hmem hcut
            · exact List.nodup_nil
            · exact List.nodup_nil
            · exact ih _ (List.nodup_cons.mpr ⟨hmem, hn⟩)
          · intro path ha hb
            dsimp only at ha hb
            split_ifs at ha with hma hca
            · cases ha
            · cases ha
            split_ifs at hb with hmb
            · cases hb
            have hsa := suffix_of_mem_cutoff_paths fuel _ path (List.nodup_cons.mpr ⟨hma, hn⟩) ha
            have hsb := suffix_of_mem_cutoff_paths fuel _ path (List.nodup_cons.mpr ⟨hmb, hn⟩) hb
            have heq := (List.suffix_of_suffix_length_le hsa hsb (by simp)).eq_of_length (by simp)
            exact hne (List.cons.inj heq).1

-- The closings from the cutoff on are those of the paths that reach it.
theorem filter_closings_eq_flatMap {root : V} (verts : List V)
    (hverts : ∀ v, ∀ next ∈ succ v, next ∈ verts) (fuel more : Nat) (stack : List V)
    (hn : stack.Nodup) (hs : ∀ v ∈ stack, v ∈ verts) (hroot : root ∈ stack)
    (hfuel : verts.length < stack.length + fuel) (hmore : fuel ≤ more) (hle : stack.length ≤ cutoff) :
    (closings succ root cap fuel stack).filter (cutoff ≤ ·.length) =
      (cutoff_paths succ cap cutoff fuel stack).flatMap (closings succ root cap more) := by
  induction fuel generalizing stack with
  | zero =>
      have := (hn.subperm hs).length_le
      omega
  | succ fuel ih =>
      obtain ⟨current, below, rfl⟩ := List.exists_cons_of_ne_nil (List.ne_nil_of_mem hroot)
      unfold cutoff_paths
      by_cases hlen : (current :: below).length = cutoff
      · rw [if_pos hlen, List.flatMap_singleton, closings_fuel_eq verts hverts (fuel + 1) more _ hn hs
          hfuel hmore, List.filter_eq_self]
        intro closed hclosed
        have hsuffix := (suffix_of_mem_closings _ _ closed hclosed).length_le
        exact decide_eq_true (hlen ▸ hsuffix)
      · rw [if_neg hlen, closings, List.filter_flatMap, List.flatMap_assoc]
        refine List.flatMap_congr fun next hnext => ?_
        unfold branch
        by_cases hr : next = root
        · -- a closing of a shorter stack
          rw [if_pos hr, if_pos (hr ▸ hroot), List.flatMap_nil, List.filter_eq_nil_iff]
          intro closed hclosed
          rw [List.mem_singleton.mp hclosed, decide_eq_true_eq]
          omega
        rw [if_neg hr]
        split_ifs with hmem hcut
        · rfl
        · rfl
        · refine ih _ (List.nodup_cons.mpr ⟨hmem, hn⟩) (fun v hv => ?_) (List.mem_cons_of_mem _ hroot)
            ?_ (by omega) ?_
          · rcases List.mem_cons.mp hv with rfl | hv
            · exact hverts current v hnext
            · exact hs v hv
          · simp only [List.length_cons] at hfuel ⊢
            omega
          · simp only [List.length_cons] at hle hlen ⊢
            omega

-- The paths read off a row of entries of which some are arcs.
theorem cutoff_paths_row {E : Type} {row : List E} {admits : E → Bool} {key : E → V} (fuel : Nat)
    (v : V) (below : List V) (hsucc : succ v = (row.filter admits).map key)
    (hlen : (v :: below).length ≠ cutoff) :
    cutoff_paths succ cap cutoff (fuel + 1) (v :: below) = row.flatMap fun entry =>
      if admits entry then
        if key entry ∈ v :: below then []
        else if cut cap (v :: below).length then []
        else cutoff_paths succ cap cutoff fuel (key entry :: v :: below)
      else [] := by
  rw [cutoff_paths, if_neg hlen, hsucc, flatMap_row]

end CycleEnum.Enumeration
