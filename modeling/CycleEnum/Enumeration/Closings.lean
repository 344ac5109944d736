import Mathlib.Data.List.Infix
import Mathlib.Data.List.Chain
import Mathlib.Data.List.Nodup
import Mathlib.Data.List.Basic
import Mathlib.Data.List.Perm.Subperm
import Mathlib.Tactic.Common

namespace CycleEnum.Enumeration

-- A length cap stops a path of `size` vertices from growing.
def cut (cap : Option Nat) (size : Nat) : Bool :=
  cap.any (· ≤ size)

@[simp] theorem cut_none (size : Nat) : cut none size = false := rfl

theorem cut_eq_false_iff (cap : Option Nat) (size : Nat) :
    cut cap size = false ↔ ∀ limit ∈ cap, size < limit := by
  cases cap with
  | none => simp
  | some limit => simp [cut]

section Closings

variable {V : Type} [DecidableEq V]

-- The closings of `stack` whose next arc leads to `next`.
def branch (root : V) (cap : Option Nat) (stack : List V) (enter : V → List (List V))
    (next : V) : List (List V) :=
  if next = root then [stack]
  else if next ∈ stack then []
  else if cut cap stack.length then []
  else enter next

section Branch

variable {root next : V} {cap : Option Nat} {stack : List V} {enter : V → List (List V)}

theorem branch_root (hr : next = root) : branch root cap stack enter next = [stack] := if_pos hr

theorem branch_skip (hr : next ≠ root) (h : next ∈ stack ∨ cut cap stack.length = true) :
    branch root cap stack enter next = [] := by
  rw [branch, if_neg hr]
  rcases h with hm | hc
  · rw [if_pos hm]
  · rw [if_pos hc, ite_self]

theorem branch_enter (hr : next ≠ root) (hm : next ∉ stack) (hc : cut cap stack.length = false) :
    branch root cap stack enter next = enter next := by
  rw [branch, if_neg hr, if_neg hm, if_neg (Bool.eq_false_iff.mp hc)]

end Branch

-- All ways to extend a stack of distinct vertices, top first, by arcs of `succ`
-- until an arc back to `root` closes it, in depth-first order. The root is the
-- bottom of every stack this is used with.
def closings (succ : V → List V) (root : V) (cap : Option Nat) : Nat → List V → List (List V)
  | 0, _ => []
  | _ + 1, [] => []
  | fuel + 1, current :: below =>
      (succ current).flatMap (branch root cap (current :: below) fun next =>
        closings succ root cap fuel (next :: current :: below))

-- The stacks that `closings` lists, without the search order. Only the arcs
-- above the given stack are arcs of `succ`.
structure Closes (succ : V → List V) (root : V) (cap : Option Nat) (stack closed : List V) :
    Prop where
  extends_stack : ∃ ext, closed = ext ++ stack ∧
    (ext ++ stack.take 1).IsChain fun after before => after ∈ succ before
  nodup : closed.Nodup
  closing : ∃ last ∈ closed.head?, root ∈ succ last
  capped : closed = stack ∨ ∀ limit ∈ cap, closed.length ≤ limit

variable {succ : V → List V} {root : V} {cap : Option Nat}

omit [DecidableEq V] in
theorem Closes.suffix {stack closed : List V} (h : Closes succ root cap stack closed) :
    stack <:+ closed := by
  obtain ⟨ext, rfl, -⟩ := h.extends_stack
  exact List.suffix_append ext stack

theorem closes_of_mem_closings (fuel : Nat) (stack closed : List V) (hn : stack.Nodup)
    (hm : closed ∈ closings succ root cap fuel stack) :
    Closes succ root cap stack closed := by
  induction fuel generalizing stack with
  | zero => simp [closings] at hm
  | succ fuel ih =>
      cases stack with
      | nil => simp [closings] at hm
      | cons current below =>
          simp only [closings, branch, List.mem_flatMap] at hm
          obtain ⟨next, hnext, hm⟩ := hm
          split_ifs at hm with hroot hmem hcut
          · obtain rfl := List.mem_singleton.mp hm
            exact ⟨⟨[], rfl, by simp⟩, hn, ⟨current, rfl, hroot ▸ hnext⟩, Or.inl rfl⟩
          · simp at hm
          · simp at hm
          · have hstep : Closes succ root cap (next :: current :: below) closed :=
              ih _ (List.nodup_cons.mpr ⟨hmem, hn⟩) hm
            obtain ⟨ext, he, hchain⟩ := hstep.extends_stack
            refine ⟨⟨ext ++ [next], by simp [he], ?_⟩, hstep.nodup, hstep.closing, Or.inr ?_⟩
            · simp only [List.take_succ_cons, List.take_zero, List.append_assoc] at hchain ⊢
              exact List.isChain_split.mpr ⟨hchain, by simpa using hnext⟩
            · rcases hstep.capped with rfl | hle
              · exact (cut_eq_false_iff cap _).mp (Bool.eq_false_iff.mpr hcut)
              · exact hle

theorem mem_closings_of_closes (fuel : Nat) (stack closed : List V) (hroot : root ∈ stack)
    (h : Closes succ root cap stack closed) (hfuel : closed.length < stack.length + fuel) :
    closed ∈ closings succ root cap fuel stack := by
  induction fuel generalizing stack with
  | zero => have := h.suffix.length_le; omega
  | succ fuel ih =>
      obtain ⟨current, below, rfl⟩ := List.exists_cons_of_ne_nil (List.ne_nil_of_mem hroot)
      obtain ⟨ext, rfl, hchain⟩ := h.extends_stack
      simp only [closings, branch, List.mem_flatMap]
      rcases List.eq_nil_or_concat ext with rfl | ⟨ext, next, rfl⟩
      · obtain ⟨last, hl, hr⟩ := h.closing
        obtain rfl : current = last := by simpa using hl
        exact ⟨root, hr, by simp⟩
      · have happ : ext.concat next ++ current :: below = ext ++ next :: current :: below := by simp
        rw [happ] at ih h hfuel ⊢
        simp only [List.concat_eq_append, List.append_assoc, List.singleton_append,
          List.take_succ_cons, List.take_zero] at hchain
        obtain ⟨hchain, hstep⟩ := List.isChain_split.mp hchain
        have hnext : next ∉ current :: below :=
          (List.nodup_cons.mp h.nodup.of_append_right).1
        have harc : next ∈ succ current := (List.isChain_cons_cons.mp hstep).1
        have hlen : (current :: below).length < (ext ++ next :: current :: below).length := by
          simp only [List.length_append, List.length_cons]; omega
        have hle : ∀ limit ∈ cap, (ext ++ next :: current :: below).length ≤ limit := by
          rcases h.capped with he | hle
          · have := congrArg List.length he; omega
          · exact hle
        have hcut : cut cap (current :: below).length = false :=
          (cut_eq_false_iff cap _).mpr fun limit hl => hlen.trans_le (hle limit hl)
        refine ⟨next, harc, ?_⟩
        have hne : next ≠ root := fun he => hnext (he ▸ hroot)
        rw [if_neg hne, if_neg hnext, if_neg (by rw [hcut]; simp)]
        apply ih _ (List.mem_cons_of_mem _ hroot)
        · exact ⟨⟨ext, rfl, hchain⟩, h.nodup, h.closing, Or.inr hle⟩
        · simp only [List.length_append, List.length_cons] at hfuel ⊢
          omega

-- Different successors extend the stack by different vertices, so no closing
-- is listed twice.
theorem closings_nodup (hsucc : ∀ v, (succ v).Nodup) (fuel : Nat) (stack : List V)
    (hn : stack.Nodup) (hroot : root ∈ stack) :
    (closings succ root cap fuel stack).Nodup := by
  induction fuel generalizing stack with
  | zero => simp [closings]
  | succ fuel ih =>
      obtain ⟨current, below, rfl⟩ := List.exists_cons_of_ne_nil (List.ne_nil_of_mem hroot)
      have hprefix : ∀ next, ∀ closed,
          closed ∈ branch root cap (current :: below)
            (fun next => closings succ root cap fuel (next :: current :: below)) next →
          if next = root then closed = current :: below
          else next :: current :: below <:+ closed := by
        intro next closed hm
        unfold branch at hm
        split_ifs at hm ⊢ with hr hmem hcut
        · simpa using hm
        · simp at hm
        · simp at hm
        · exact (closes_of_mem_closings fuel _ closed (List.nodup_cons.mpr ⟨hmem, hn⟩) hm).suffix
      simp only [closings]
      refine List.nodup_flatMap.mpr ⟨?_, ?_⟩
      · intro next hnext
        unfold branch
        split_ifs with hr hmem hcut
        · exact List.nodup_singleton _
        · exact List.nodup_nil
        · exact List.nodup_nil
        · exact ih _ (List.nodup_cons.mpr ⟨hmem, hn⟩) (List.mem_cons_of_mem _ hroot)
      · refine List.Pairwise.imp ?_ (hsucc current)
        intro a b hne closed hca hcb
        have hpa := hprefix a closed hca
        have hpb := hprefix b closed hcb
        by_cases hra : a = root <;> by_cases hrb : b = root
        · exact hne (hra.trans hrb.symm)
        · rw [if_pos hra] at hpa
          rw [if_neg hrb, hpa] at hpb
          exact absurd hpb.length_le (by simp)
        · rw [if_pos hrb] at hpb
          rw [if_neg hra, hpb] at hpa
          exact absurd hpa.length_le (by simp)
        · rw [if_neg hra] at hpa
          rw [if_neg hrb] at hpb
          have heq := (List.suffix_of_suffix_length_le hpa hpb (by simp)).eq_of_length (by simp)
          exact hne (List.cons.inj heq).1

-- Every recursive call adds a vertex of `verts` to the stack, so more fuel than
-- there are vertices left changes nothing. What lies at the bottom may come again above.
theorem closings_fuel_above (verts base : List V) (hverts : ∀ v, ∀ next ∈ succ v, next ∈ verts)
    (fuel more : Nat) (above : List V) (hn : above.Nodup) (hs : ∀ v ∈ above, v ∈ verts)
    (hne : above ≠ []) (hfuel : verts.length < above.length + fuel) (hle : fuel ≤ more) :
    closings succ root cap more (above ++ base) = closings succ root cap fuel (above ++ base) := by
  induction fuel generalizing above more with
  | zero => have := (hn.subperm hs).length_le; omega
  | succ fuel ih =>
      obtain ⟨more, rfl⟩ : ∃ m, more = m + 1 := ⟨more - 1, by omega⟩
      obtain ⟨current, below, rfl⟩ := List.exists_cons_of_ne_nil hne
      simp only [List.cons_append, closings]
      refine List.flatMap_congr fun next hnext => ?_
      unfold branch
      split_ifs with hr hmem hcut
      · rfl
      · rfl
      · rfl
      · have hnew : next ∉ current :: below := fun h => hmem (List.mem_append_left base h)
        apply ih more (next :: current :: below) (List.nodup_cons.mpr ⟨hnew, hn⟩)
        · intro v hv
          rcases List.mem_cons.mp hv with rfl | hv
          · exact hverts current _ hnext
          · exact hs v hv
        · simp
        · simp only [List.length_cons] at hfuel ⊢; omega
        · omega

theorem closings_fuel_eq (verts : List V) (hverts : ∀ v, ∀ next ∈ succ v, next ∈ verts)
    (fuel more : Nat) (stack : List V) (hn : stack.Nodup) (hs : ∀ v ∈ stack, v ∈ verts)
    (hfuel : verts.length < stack.length + fuel) (hle : fuel ≤ more) :
    closings succ root cap more stack = closings succ root cap fuel stack := by
  cases stack with
  | nil => cases more <;> cases fuel <;> rfl
  | cons current below =>
      have habove := @closings_fuel_above _ _ succ root cap verts [] hverts fuel more
        (current :: below) hn hs (List.cons_ne_nil _ _) hfuel hle
      rwa [List.append_nil] at habove

-- Every vertex above the given stack, and its top, is left by an arc.
omit [DecidableEq V] in
theorem Closes.leaves {below closed : List V} {top v : V}
    (h : Closes succ root cap (top :: below) closed) (hv : v ∈ closed) (hb : v ∉ below) :
    succ v ≠ [] := by
  obtain ⟨ext, rfl, hchain⟩ := h.extends_stack
  have hv : v ∈ ext ++ [top] := by
    simp only [List.mem_append, List.mem_cons, List.not_mem_nil, or_false] at hv ⊢
    exact hv.imp id fun hv => hv.resolve_right hb
  obtain ⟨front, back, hsplit⟩ := List.append_of_mem hv
  rw [List.take_succ_cons, List.take_zero, hsplit] at hchain
  rcases List.eq_nil_or_concat front with rfl | ⟨front, next, rfl⟩
  · obtain ⟨last, hl, hr⟩ := h.closing
    have hhead : (ext ++ top :: below).head? = some v := by
      cases ext with
      | nil => simpa using congrArg List.head? hsplit
      | cons x ext => simpa using congrArg List.head? hsplit
    obtain rfl : v = last := by simpa [hhead] using hl
    exact List.ne_nil_of_mem hr
  · simp only [List.concat_eq_append, List.append_assoc, List.singleton_append] at hchain
    exact List.ne_nil_of_mem (List.isChain_cons_cons.mp (List.isChain_split.mp hchain).2).1

-- A part of a closed stack is closed itself when an arc leads from it to the root.
omit [DecidableEq V] in
theorem Closes.part {stack closed part : List V} (h : Closes succ root cap stack closed)
    (hpart : part <:+ closed) (hstack : stack <:+ part)
    (hclosing : ∃ last ∈ part.head?, root ∈ succ last)
    (hcap : ∀ limit ∈ cap, stack.length ≤ limit) : Closes succ root cap stack part := by
  obtain ⟨ext, rfl⟩ := hstack
  obtain ⟨more, rfl⟩ := hpart
  obtain ⟨ext', he, hchain⟩ := h.extends_stack
  obtain rfl : more ++ ext = ext' := List.append_cancel_right (by rw [← he, List.append_assoc])
  rw [List.append_assoc] at hchain
  refine ⟨⟨ext, rfl, hchain.right_of_append⟩, h.nodup.of_append_right, hclosing, Or.inr ?_⟩
  intro limit hl
  have hlen : (ext ++ stack).length ≤ (more ++ (ext ++ stack)).length := by simp
  rcases h.capped with he | hle
  · have := congrArg List.length he
    have := hcap limit hl
    omega
  · exact hlen.trans (hle limit hl)

omit [DecidableEq V] in
theorem flatMap_row {E W : Type} (row : List E) (admits : E → Bool) (key : E → V)
    (visit : V → List W) :
    ((row.filter admits).map key).flatMap visit =
      row.flatMap fun entry => if admits entry then visit (key entry) else [] := by
  induction row with
  | nil => rfl
  | cons entry row ih =>
      rw [List.flatMap_cons, List.filter_cons]
      split_ifs with ha
      · rw [List.map_cons, List.flatMap_cons, ih]
      · simpa using ih

-- The closings read off a row of entries of which some are arcs.
theorem closings_row {E : Type} {row : List E} {admits : E → Bool} {key : E → V} (fuel : Nat)
    (v : V) (below : List V) (hsucc : succ v = (row.filter admits).map key) :
    closings succ root cap (fuel + 1) (v :: below) = row.flatMap fun entry =>
      if admits entry then branch root cap (v :: below)
        (fun next => closings succ root cap fuel (next :: v :: below)) (key entry) else [] := by
  rw [closings, hsucc, flatMap_row]

theorem suffix_of_mem_closings (fuel : Nat) (stack closed : List V)
    (hm : closed ∈ closings succ root cap fuel stack) : stack <:+ closed := by
  induction fuel generalizing stack with
  | zero => simp [closings] at hm
  | succ fuel ih =>
      cases stack with
      | nil => simp [closings] at hm
      | cons current below =>
          simp only [closings, branch, List.mem_flatMap] at hm
          obtain ⟨next, -, hm⟩ := hm
          split_ifs at hm
          · exact List.mem_singleton.mp hm ▸ List.suffix_refl _
          · simp at hm
          · simp at hm
          · exact (List.suffix_cons _ _).trans (ih _ hm)

-- A cap lists the closings that respect it.
theorem closings_some_eq_filter (limit : Nat) (fuel : Nat) (stack : List V)
    (hle : stack.length ≤ limit) :
    closings succ root (some limit) fuel stack =
      (closings succ root none fuel stack).filter (·.length ≤ limit) := by
  induction fuel generalizing stack with
  | zero => rfl
  | succ fuel ih =>
      cases stack with
      | nil => rfl
      | cons current below =>
          simp only [closings]
          rw [List.filter_flatMap]
          refine List.flatMap_congr fun next _ => ?_
          unfold branch
          by_cases hr : next = root
          · rw [if_pos hr, if_pos hr, List.filter_cons_of_pos (by simpa using hle), List.filter_nil]
          rw [if_neg hr, if_neg hr]
          by_cases hm : next ∈ current :: below
          · rw [if_pos hm, if_pos hm]
            rfl
          rw [if_neg hm, if_neg hm, cut_none, if_neg Bool.false_ne_true]
          cases hc : cut (some limit) (current :: below).length with
          | true =>
              -- every closing of a longer stack is too long
              rw [if_pos rfl, eq_comm, List.filter_eq_nil_iff]
              intro closed hclosed
              have hlen := (suffix_of_mem_closings fuel _ closed hclosed).length_le
              have hge : limit ≤ (current :: below).length := by simpa [cut] using hc
              simp only [List.length_cons, decide_eq_true_eq] at hlen hge ⊢
              omega
          | false =>
              rw [if_neg Bool.false_ne_true]
              have hlt : (current :: below).length < limit := by simpa [cut] using hc
              exact ih _ hlt

end Closings

end CycleEnum.Enumeration
