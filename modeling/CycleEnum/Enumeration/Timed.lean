import CycleEnum.Enumeration.Closings
import Mathlib.Algebra.Order.Group.Int

namespace CycleEnum.Enumeration

-- A graph whose arcs carry events at points in time.
structure EventGraph (V E : Type) where
  arcs : V → List (V × List E)
  time : E → Int

variable {V E : Type}

-- The events of an arc after the previous one and within the window.
def EventGraph.later (g : EventGraph V E) (window_end previous : Int) (events : List E) : List E :=
  events.filter fun event => previous < g.time event ∧ g.time event ≤ window_end

theorem EventGraph.mem_later {g : EventGraph V E} {window_end previous : Int} {events : List E}
    {event : E} : event ∈ g.later window_end previous events ↔
      event ∈ events ∧ previous < g.time event ∧ g.time event ≤ window_end := by
  simp [later]

-- A walk along later and later events leads to the root. It may visit a vertex
-- more than once.
inductive LeadsBack (g : EventGraph V E) (window_end : Int) (root : V) : V → Int → Prop
  | close {v : V} {previous : Int} {events : List E} {event : E}
      (arc : (root, events) ∈ g.arcs v) (later : event ∈ g.later window_end previous events) :
      LeadsBack g window_end root v previous
  | step {v next : V} {previous : Int} {events : List E} {event : E}
      (arc : (next, events) ∈ g.arcs v) (later : event ∈ g.later window_end previous events)
      (rest : LeadsBack g window_end root next (g.time event)) : LeadsBack g window_end root v previous

section Closings

variable [DecidableEq V]

-- The closings of a stack whose arcs carry later and later events, each with the
-- number of events that close it, in depth-first order. A stack is listed once for
-- every choice of events on the way to it.
def timed_closings (g : EventGraph V E) (window_end : Int) (root : V) (cap : Option Nat) :
    Nat → List V → Int → List (List V × Nat)
  | 0, _, _ => []
  | _ + 1, [], _ => []
  | fuel + 1, current :: below, previous =>
      (g.arcs current).flatMap fun arc =>
        let events := g.later window_end previous arc.2
        if events = [] then []
        else if arc.1 = root then [(current :: below, events.length)]
        else if arc.1 ∈ current :: below then []
        else if cut cap (current :: below).length then []
        else events.flatMap fun event =>
          timed_closings g window_end root cap fuel (arc.1 :: current :: below) (g.time event)

end Closings

variable {g : EventGraph V E} {window_end : Int} {root : V}

theorem leads_back_iff {v : V} {previous : Int} :
    LeadsBack g window_end root v previous ↔
      ∃ arc ∈ g.arcs v, ∃ event ∈ g.later window_end previous arc.2,
        arc.1 = root ∨ LeadsBack g window_end root arc.1 (g.time event) := by
  constructor
  · intro h
    cases h with
    | close arc later => exact ⟨_, arc, _, later, Or.inl rfl⟩
    | step arc later rest => exact ⟨_, arc, _, later, Or.inr rest⟩
  · rintro ⟨⟨next, events⟩, arc, event, later, rfl | rest⟩
    · exact .close arc later
    · exact .step arc later rest

theorem LeadsBack.earlier {v : V} {previous previous' : Int} (h : LeadsBack g window_end root v previous')
    (hle : previous ≤ previous') : LeadsBack g window_end root v previous := by
  have hlater : ∀ events event, event ∈ g.later window_end previous' events →
      event ∈ g.later window_end previous events := by
    intro events event he
    rw [EventGraph.mem_later] at he ⊢
    exact ⟨he.1, lt_of_le_of_lt hle he.2.1, he.2.2⟩
  cases h with
  | close arc later => exact .close arc (hlater _ _ later)
  | step arc later rest => exact .step arc (hlater _ _ later) rest

section Closings

variable [DecidableEq V] {cap : Option Nat}

-- What a listed closing looks like, and that the search does lead to the root.
theorem mem_timed_closings (fuel : Nat) (top : V) (below : List V) (previous : Int)
    {closed : List V} {count : Nat} (hn : (top :: below).Nodup)
    (h : (closed, count) ∈ timed_closings g window_end root cap fuel (top :: below) previous) :
    LeadsBack g window_end root top previous ∧ closed.Nodup ∧ top :: below <:+ closed ∧
      ∀ v ∈ closed, v ∉ below → g.arcs v ≠ [] := by
  induction fuel generalizing top below previous with
  | zero => simp [timed_closings] at h
  | succ fuel ih =>
      obtain ⟨⟨next, events⟩, harc, h⟩ := List.mem_flatMap.mp h
      simp only at h
      have htop : g.arcs top ≠ [] := List.ne_nil_of_mem harc
      split_ifs at h with hempty hroot hmem hcut
      · simp at h
      · obtain ⟨rfl, -⟩ := Prod.mk.inj (List.mem_singleton.mp h)
        obtain ⟨event, he⟩ := List.exists_mem_of_ne_nil _ hempty
        refine ⟨.close (hroot ▸ harc) he, hn, List.suffix_refl _, fun v hv hb => ?_⟩
        obtain rfl := (List.mem_cons.mp hv).resolve_right hb
        exact htop
      · simp at h
      · simp at h
      · obtain ⟨event, he, h⟩ := List.mem_flatMap.mp h
        obtain ⟨hleads, hnodup, hsuffix, harcs⟩ :=
          ih next (top :: below) (g.time event) (List.nodup_cons.mpr ⟨hmem, hn⟩) h
        refine ⟨.step harc he hleads, hnodup, (List.suffix_cons _ _).trans hsuffix, fun v hv hb => ?_⟩
        by_cases hv' : v = top
        · exact hv' ▸ htop
        · exact harcs v hv fun hm => (List.mem_cons.mp hm).elim hv' hb

-- No listed closing is longer than the cap.
theorem timed_closings_short {limit : Nat} (fuel : Nat) (stack : List V) (previous : Int)
    (hs : stack.length ≤ limit) :
    ∀ closed ∈ timed_closings g window_end root (some limit) fuel stack previous,
      closed.1.length ≤ limit := by
  induction fuel generalizing stack previous with
  | zero => simp [timed_closings]
  | succ fuel ih =>
      cases stack with
      | nil => simp [timed_closings]
      | cons current below =>
          intro closed h
          obtain ⟨arc, -, h⟩ := List.mem_flatMap.mp h
          simp only at h
          split_ifs at h with hempty hroot hmem hcut
          · simp at h
          · rw [List.mem_singleton.mp h]
            exact hs
          · simp at h
          · simp at h
          · obtain ⟨event, -, h⟩ := List.mem_flatMap.mp h
            refine ih (arc.1 :: current :: below) (g.time event) ?_ closed h
            simp only [cut, Option.any_some, decide_eq_true_eq] at hcut
            rw [List.length_cons]
            omega

-- More fuel than there are vertices left changes nothing.
theorem timed_closings_fuel_eq (verts : List V) (hverts : ∀ v, ∀ arc ∈ g.arcs v, arc.1 ∈ verts)
    (fuel more : Nat) (stack : List V) (previous : Int) (hn : stack.Nodup)
    (hs : ∀ v ∈ stack, v ∈ verts) (hfuel : verts.length < stack.length + fuel) (hle : fuel ≤ more) :
    timed_closings g window_end root cap more stack previous =
      timed_closings g window_end root cap fuel stack previous := by
  induction fuel generalizing stack previous more with
  | zero => have := (hn.subperm hs).length_le; omega
  | succ fuel ih =>
      obtain ⟨more, rfl⟩ : ∃ m, more = m + 1 := ⟨more - 1, by omega⟩
      cases stack with
      | nil => rfl
      | cons current below =>
          simp only [timed_closings]
          refine List.flatMap_congr fun arc harc => ?_
          split_ifs with hempty hroot hmem hcut
          · rfl
          · rfl
          · rfl
          · rfl
          · refine List.flatMap_congr fun event _ => ?_
            have hin := hverts current arc harc
            refine ih more (arc.1 :: current :: below) _ (List.nodup_cons.mpr ⟨hmem, hn⟩)
              (fun v hv => ?_) ?_ (by omega)
            · rcases List.mem_cons.mp hv with rfl | hv
              · exact hin
              · exact hs v hv
            · rw [List.length_cons]
              omega

-- Where no walk leads to the root, nothing closes.
theorem timed_closings_eq_nil {fuel : Nat} {top : V} {below : List V} {previous : Int}
    (hn : (top :: below).Nodup) (h : ¬LeadsBack g window_end root top previous) :
    timed_closings g window_end root cap fuel (top :: below) previous = [] :=
  List.eq_nil_iff_forall_not_mem.mpr fun _ hc =>
    h (mem_timed_closings fuel top below previous hn hc).1

end Closings

end CycleEnum.Enumeration
