import CycleEnum.Enumeration.Timed
import Mathlib.Data.List.Forall2

namespace CycleEnum.Enumeration

variable {V E : Type}

def IsEvent (g : EventGraph V E) (u v : V) (event : E) : Prop :=
  ∃ events, (v, events) ∈ g.arcs u ∧ event ∈ events

-- Vertices and later and later events on the way from `current` back to the root.
def Completes (g : EventGraph V E) (window_end : Int) (root : V) : V → E → List V → List E → Prop
  | current, last, [], [event] =>
      IsEvent g current root event ∧ g.time last < g.time event ∧ g.time event ≤ window_end
  | current, last, next :: vertices, event :: events =>
      (IsEvent g current next event ∧ g.time last < g.time event ∧ g.time event ≤ window_end) ∧
        Completes g window_end root next event vertices events
  | _, _, _, _ => False

-- Arcs that leave a vertex have different targets, and an arc has its events once.
structure EventGraph.Simple (g : EventGraph V E) : Prop where
  targets : ∀ v, ((g.arcs v).map (·.1)).Nodup
  events : ∀ v, ∀ arc ∈ g.arcs v, arc.2.Nodup

variable {g : EventGraph V E} {window_end : Int} {root : V} {cap : Option Nat}

-- The same by the edges of the closed walk and their events.
theorem completes_iff_forall₂ (current : V) (last : E) (vertices : List V) (events : List E) :
    Completes g window_end root current last vertices events ↔
      List.Forall₂ (fun arc event => IsEvent g arc.1 arc.2 event)
        ((current :: vertices).zip (vertices ++ [root])) events ∧
      (last :: events).Pairwise (fun a b => g.time a < g.time b) ∧
      ∀ event ∈ events, g.time event ≤ window_end := by
  induction vertices generalizing current last events with
  | nil =>
      cases events with
      | nil => simp [Completes]
      | cons event events =>
          cases events with
          | nil => simp [Completes]
          | cons other events => simp [Completes]
  | cons next vertices ih =>
      cases events with
      | nil => simp [Completes]
      | cons event events =>
          rw [Completes, ih, List.cons_append, List.zip_cons_cons, List.forall₂_cons,
            List.pairwise_cons (a := last), List.forall_mem_cons, List.forall_mem_cons]
          constructor
          · rintro ⟨⟨he, hlt, hle⟩, harcs, hsorted, hend⟩
            exact ⟨⟨he, harcs⟩, ⟨⟨hlt, fun other ho =>
              hlt.trans (List.rel_of_pairwise_cons hsorted ho)⟩, hsorted⟩, hle, hend⟩
          · rintro ⟨⟨he, harcs⟩, ⟨⟨hlt, -⟩, hsorted⟩, hle, hend⟩
            exact ⟨⟨he, hlt, hle⟩, harcs, hsorted, hend⟩

theorem Completes.arcs_ne_nil {current : V} {last : E} {vertices : List V} {events : List E}
    (h : Completes g window_end root current last vertices events) :
    ∀ v ∈ current :: vertices, g.arcs v ≠ [] := by
  induction vertices generalizing current last events with
  | nil =>
      intro v hv
      obtain rfl := List.mem_singleton.mp hv
      match events, h with
      | [_], ⟨⟨_, harc, _⟩, _⟩ => exact List.ne_nil_of_mem harc
  | cons next vertices ih =>
      intro v hv
      match events, h with
      | _ :: _, ⟨⟨⟨_, harc, _⟩, _⟩, hrest⟩ =>
          rcases List.mem_cons.mp hv with rfl | hv
          · exact List.ne_nil_of_mem harc
          · exact ih hrest v hv

section Completions

variable [DecidableEq V]

-- The completions of a stack whose top was reached by the event `last`.
def completions (g : EventGraph V E) (window_end : Int) (root : V) (cap : Option Nat) :
    Nat → List V → E → List (List V × List E)
  | 0, _, _ => []
  | _ + 1, [], _ => []
  | fuel + 1, current :: below, last =>
      (g.arcs current).flatMap fun arc =>
        let events := g.later window_end (g.time last) arc.2
        if arc.1 = root then events.map fun event => ([], [event])
        else if arc.1 ∈ current :: below then []
        else if cut cap (current :: below).length then []
        else events.flatMap fun event =>
          (completions g window_end root cap fuel (arc.1 :: current :: below) event).map
            fun rest => (arc.1 :: rest.1, event :: rest.2)

theorem completes_of_mem_completions (fuel : Nat) (current : V) (below : List V) (last : E)
    (hn : (current :: below).Nodup) {vertices : List V} {events : List E}
    (h : (vertices, events) ∈ completions g window_end root cap fuel (current :: below) last) :
    Completes g window_end root current last vertices events ∧
      (vertices.reverse ++ current :: below).Nodup ∧
      (vertices = [] ∨ ∀ limit ∈ cap, (vertices.reverse ++ current :: below).length ≤ limit) := by
  induction fuel generalizing current below last vertices events with
  | zero => simp [completions] at h
  | succ fuel ih =>
      obtain ⟨⟨next, arc_events⟩, harc, h⟩ := List.mem_flatMap.mp h
      simp only at h
      split_ifs at h with hroot hmem hcut
      · obtain ⟨event, he, hrest⟩ := List.mem_map.mp h
        obtain ⟨rfl, rfl⟩ := Prod.mk.inj hrest
        obtain ⟨he, hlater⟩ := EventGraph.mem_later.mp he
        exact ⟨⟨⟨arc_events, hroot ▸ harc, he⟩, hlater⟩, hn, Or.inl rfl⟩
      · simp at h
      · simp at h
      · obtain ⟨event, he, h⟩ := List.mem_flatMap.mp h
        obtain ⟨⟨vertices, events⟩, hinner, hrest⟩ := List.mem_map.mp h
        obtain ⟨rfl, rfl⟩ := Prod.mk.inj hrest
        obtain ⟨he, hlater⟩ := EventGraph.mem_later.mp he
        obtain ⟨hc, hnodup, hcap⟩ :=
          ih next (current :: below) event (List.nodup_cons.mpr ⟨hmem, hn⟩) hinner
        have happ : (next :: vertices).reverse ++ current :: below =
            vertices.reverse ++ next :: current :: below := by simp
        rw [happ]
        refine ⟨⟨⟨⟨arc_events, harc, he⟩, hlater⟩, hc⟩, hnodup, Or.inr ?_⟩
        rcases hcap with rfl | hle
        · exact (cut_eq_false_iff cap _).mp (Bool.eq_false_iff.mpr hcut)
        · exact hle

theorem mem_completions_of_completes (fuel : Nat) (current : V) (below : List V) (last : E)
    (hroot : root ∈ current :: below) {vertices : List V} {events : List E}
    (hfuel : vertices.length < fuel) (h : Completes g window_end root current last vertices events)
    (hn : (vertices.reverse ++ current :: below).Nodup)
    (hcap : vertices = [] ∨ ∀ limit ∈ cap, (vertices.reverse ++ current :: below).length ≤ limit) :
    (vertices, events) ∈ completions g window_end root cap fuel (current :: below) last := by
  induction fuel generalizing current below last vertices events with
  | zero => omega
  | succ fuel ih =>
      rw [completions, List.mem_flatMap]
      cases vertices with
      | nil =>
          obtain ⟨event, rfl⟩ : ∃ event, events = [event] := by
            cases events with
            | nil => exact h.elim
            | cons event events =>
                cases events with
                | nil => exact ⟨event, rfl⟩
                | cons other events => exact h.elim
          obtain ⟨⟨arc_events, harc, he⟩, hlater⟩ := h
          refine ⟨(root, arc_events), harc, ?_⟩
          rw [if_pos rfl]
          exact List.mem_map.mpr ⟨event, EventGraph.mem_later.mpr ⟨he, hlater⟩, rfl⟩
      | cons next vertices =>
          obtain ⟨event, events, rfl⟩ : ∃ event rest, events = event :: rest := by
            cases events with
            | nil => exact h.elim
            | cons event events => exact ⟨event, events, rfl⟩
          obtain ⟨⟨⟨arc_events, harc, he⟩, hlater⟩, hc⟩ := h
          have happ : (next :: vertices).reverse ++ current :: below =
              vertices.reverse ++ next :: current :: below := by simp
          rw [happ] at hn hcap
          have hmem : next ∉ current :: below := (List.nodup_cons.mp hn.of_append_right).1
          have hle := hcap.resolve_left (by simp)
          have hcut : ¬cut cap (current :: below).length = true := by
            rw [Bool.not_eq_true, cut_eq_false_iff]
            intro limit hl
            have := hle limit hl
            simp only [List.length_append, List.length_cons] at this ⊢
            omega
          refine ⟨(next, arc_events), harc, ?_⟩
          rw [if_neg fun hr : next = root => hmem (hr ▸ hroot), if_neg hmem, if_neg hcut]
          refine List.mem_flatMap.mpr ⟨event, EventGraph.mem_later.mpr ⟨he, hlater⟩, ?_⟩
          exact List.mem_map.mpr ⟨(vertices, events), ih next (current :: below) event
            (List.mem_cons_of_mem _ hroot) (by simpa using hfuel) hc hn (Or.inr hle), rfl⟩

-- Different arcs differ in the vertex that comes next, different events of an arc
-- in the event.
theorem completions_nodup (hg : g.Simple) (fuel : Nat) (stack : List V) (last : E) :
    (completions g window_end root cap fuel stack last).Nodup := by
  induction fuel generalizing stack last with
  | zero => exact List.nodup_nil
  | succ fuel ih =>
      cases stack with
      | nil => exact List.nodup_nil
      | cons current below =>
          refine List.nodup_flatMap.mpr ⟨fun arc harc => ?_, ?_⟩
          · have hevents : (g.later window_end (g.time last) arc.2).Nodup :=
              (hg.events current arc harc).filter _
            dsimp only
            split_ifs
            · exact hevents.map fun a b h => by simpa using h
            · exact List.nodup_nil
            · exact List.nodup_nil
            · refine List.nodup_flatMap.mpr ⟨fun event _ => ?_, ?_⟩
              · exact (ih _ event).map fun a b h => by
                  obtain ⟨h₁, h₂⟩ := Prod.mk.inj h
                  exact Prod.ext (List.cons.inj h₁).2 (List.cons.inj h₂).2
              · refine hevents.imp fun {a b} hne rest ha hb => hne ?_
                obtain ⟨x, -, rfl⟩ := List.mem_map.mp ha
                obtain ⟨y, -, hy⟩ := List.mem_map.mp hb
                exact (List.cons.inj (Prod.mk.inj hy).2).1.symm
          · have hhead : ∀ (arc : V × List E) (rest : List V × List E), rest ∈ (
                let events := g.later window_end (g.time last) arc.2
                if arc.1 = root then events.map fun event => ([], [event])
                else if arc.1 ∈ current :: below then []
                else if cut cap (current :: below).length then []
                else events.flatMap fun event =>
                  (completions g window_end root cap fuel (arc.1 :: current :: below) event).map
                    fun rest => (arc.1 :: rest.1, event :: rest.2)) →
                rest.1.head? = if arc.1 = root then none else some arc.1 := by
              intro arc rest hrest
              dsimp only at hrest
              split_ifs at hrest ⊢ with hr
              · obtain ⟨event, -, rfl⟩ := List.mem_map.mp hrest
                rfl
              · simp at hrest
              · simp at hrest
              · obtain ⟨event, -, hrest⟩ := List.mem_flatMap.mp hrest
                obtain ⟨more, -, rfl⟩ := List.mem_map.mp hrest
                rfl
            refine (List.pairwise_map.mp (hg.targets current)).imp fun {a b} hne rest ha hb => hne ?_
            have h := (hhead a rest ha).symm.trans (hhead b rest hb)
            split_ifs at h with h₁ h₂ h₂
            · exact h₁.trans h₂.symm
            · exact Option.some.inj h

end Completions

end CycleEnum.Enumeration
