import CycleEnum.Sequential.BruteforceClosings
import CycleEnum.Enumeration.CycleLists

namespace CycleEnum.Sequential

open Enumeration

def Arc (graph : GraphView) (u v : Nat) : Prop := ∃ edge ∈ graph.outgoing_entries u, edge.vertex = v

-- The simple directed cycles with `k` vertices, up to rotation.
def simple_cycles (graph : GraphView) (k : Nat) : Set (Cycle Nat) :=
  {c | c.Nodup ∧ c.length = k ∧ c.Chain (Arc graph)}

-- The closed paths of `k` vertices, each read from its root on.
def static_readings (graph : GraphView) (cap : Option Nat) (k : Nat) : List (List Nat) :=
  (List.range graph.vertex_count).flatMap fun root =>
    ((static_closings graph cap root).filter (·.length = k)).map List.reverse

variable {graph : GraphView} {cap : Option Nat}

theorem mem_static_successors_iff (hw : graph.WellFormed) {root v next : Nat} :
    next ∈ static_successors graph root v ↔ Arc graph v next ∧ root ≤ next := by
  simp only [static_successors, List.mem_map, List.mem_filter, decide_eq_true_eq, Arc, hw.whole]
  constructor
  · rintro ⟨edge, ⟨he, hle⟩, rfl⟩
    exact ⟨⟨edge, he, rfl⟩, hle⟩
  · rintro ⟨⟨edge, he, rfl⟩, hle⟩
    exact ⟨edge, ⟨he, hle⟩, rfl⟩

theorem static_tally (hw : graph.WellFormed) (k : Nat) :
    CycleHistogram.tally (static_events graph cap) k = (static_readings graph cap k).length := by
  rw [static_events, CycleHistogram.tally_flatMap, static_readings, List.length_flatMap]
  congr 1
  refine List.map_congr_left fun root _ => ?_
  rw [tally_closings fun c hc => (static_closing_event hw hc).1, List.length_map,
    List.countP_eq_length_filter]

-- A cycle is read from its smallest vertex.
def Smallest (c : Cycle Nat) (r : Nat) : Prop := r ∈ c ∧ ∀ x ∈ c, r ≤ x

theorem static_chain_iff (hw : graph.WellFormed) {r k : Nat} {l : List Nat} (hk : 2 ≤ k)
    (hlen : (r :: l).length = k) :
    (r :: l ++ [r]).IsChain (fun a b => b ∈ static_successors graph r a) ↔
      (↑(r :: l) : Cycle Nat).Chain (Arc graph) ∧ Smallest ↑(r :: l) r := by
  have hc : 2 ≤ (↑(r :: l) : Cycle Nat).length := by
    rw [Cycle.length_coe, hlen]
    exact hk
  change (↑(r :: l) : Cycle Nat).Chain (fun a b => b ∈ static_successors graph r a) ↔ _
  rw [chain_iff_follows _ _ hc, chain_iff_follows _ _ hc]
  constructor
  · intro h
    refine ⟨fun a b hf => ((mem_static_successors_iff hw).mp (h a b hf)).1, by simp, fun x hx => ?_⟩
    -- every vertex follows another one, along an arc of the search
    obtain ⟨a, hf⟩ := exists_follows hc hx
    exact ((mem_static_successors_iff hw).mp (h a x hf)).2
  · rintro ⟨harc, -, hmin⟩ a b hf
    exact (mem_static_successors_iff hw).mpr ⟨harc a b hf, hmin b hf.mem.2⟩

theorem mem_static_readings (hw : graph.WellFormed) {k : Nat} (hk : 2 ≤ k) (r : Nat)
    (l : List Nat) :
    r :: l ∈ static_readings graph cap k ↔
      ((↑(r :: l) : Cycle Nat) ∈ simple_cycles graph k ∧ Smallest ↑(r :: l) r) ∧
        ∀ limit ∈ cap, k ≤ limit := by
  have hpath : Closes (static_successors graph r) r cap [r] (l.reverse ++ [r]) ↔
      (r :: l).Nodup ∧ (r :: l ++ [r]).IsChain (fun a b => b ∈ static_successors graph r a) ∧
        (l = [] ∨ ∀ limit ∈ cap, (r :: l).length ≤ limit) := by
    have hnodup : (l.reverse ++ [r]).Nodup ↔ (r :: l).Nodup := by
      rw [← List.nodup_reverse]
      simp
    have hlen : (l.reverse ++ [r]).length = (r :: l).length := by simp
    rw [closes_iff_path, hnodup, List.reverse_reverse, hlen]
    simp
  constructor
  · intro h
    obtain ⟨root, -, h⟩ := List.mem_flatMap.mp h
    obtain ⟨closed, hc, hrev⟩ := List.mem_map.mp h
    obtain ⟨hc, hlen⟩ := List.mem_filter.mp hc
    have hcloses := static_closes hc
    obtain rfl : closed = l.reverse ++ [r] := by
      rw [← List.reverse_reverse closed, hrev, List.reverse_cons]
    obtain rfl : r = root := by
      obtain ⟨ext, he, -⟩ := hcloses.extends_stack
      simpa using (List.append_inj' he rfl).2
    have hlen : (r :: l).length = k := by simpa using hlen
    obtain ⟨hn, hchain, hcap⟩ := hpath.mp hcloses
    obtain ⟨harc, hmin⟩ := (static_chain_iff hw hk hlen).mp hchain
    refine ⟨⟨⟨hn, hlen, harc⟩, hmin⟩, hlen ▸ hcap.resolve_left ?_⟩
    rintro rfl
    simp at hlen
    omega
  · rintro ⟨⟨⟨hn, hlen, harc⟩, hmin⟩, hcap⟩
    have hlen : (r :: l).length = k := hlen
    have hcloses := hpath.mpr ⟨hn, (static_chain_iff hw hk hlen).mpr ⟨harc, hmin⟩,
      Or.inr (hlen ▸ hcap)⟩
    have hr : r < graph.vertex_count := by
      have hne := closes_outgoing_row hcloses (by simp) r (by simp)
      obtain ⟨edge, he⟩ := List.exists_mem_of_ne_nil _ hne
      exact (hw.bounded r edge he).1
    refine List.mem_flatMap.mpr ⟨r, List.mem_range.mpr hr, List.mem_map.mpr ⟨l.reverse ++ [r], ?_, by simp⟩⟩
    exact List.mem_filter.mpr ⟨mem_static_closings hw hcloses, by simpa using hlen⟩

theorem static_readings_nodup (hw : graph.WellFormed) (k : Nat) :
    (static_readings graph cap k).Nodup := by
  refine List.nodup_flatMap.mpr ⟨fun root hr => ?_, ?_⟩
  · refine List.Nodup.map List.reverse_injective (List.Nodup.filter _ ?_)
    exact closings_nodup (static_successors_nodup hw root) _ _ (List.nodup_singleton root) (by simp)
  · refine List.nodup_range.imp fun {root root'} hne l hl hl' => hne ?_
    obtain ⟨closed, hc, rfl⟩ := List.mem_map.mp hl
    obtain ⟨closed', hc', he⟩ := List.mem_map.mp hl'
    obtain rfl := List.reverse_injective he
    obtain ⟨ext, he, -⟩ := (static_closes (List.mem_filter.mp hc).1).extends_stack
    obtain ⟨ext', he', -⟩ := (static_closes (List.mem_filter.mp hc').1).extends_stack
    simpa using (List.append_inj' (he.symm.trans he') rfl).2

theorem exists_smallest {c : Cycle Nat} (h : 2 ≤ c.length) : ∃ r, Smallest c r := by
  obtain ⟨x, hx⟩ := exists_mem_of_length_pos (show 0 < c.length by omega)
  obtain ⟨r, hr, hmin⟩ := WellFounded.has_min Nat.lt_wfRel.wf {x | x ∈ c} ⟨x, hx⟩
  exact ⟨r, hr, fun x hx => Nat.le_of_not_lt (hmin x hx)⟩

theorem Smallest.unique {c : Cycle Nat} {r r' : Nat} (h : Smallest c r) (h' : Smallest c r') :
    r = r' :=
  Nat.le_antisymm (h.2 r' h'.1) (h'.2 r h.1)

theorem not_mem_static_readings_nil {k : Nat} (hk : 2 ≤ k) : [] ∉ static_readings graph cap k := by
  intro h
  obtain ⟨root, -, h⟩ := List.mem_flatMap.mp h
  obtain ⟨closed, hc, hrev⟩ := List.mem_map.mp h
  obtain rfl := List.reverse_eq_nil_iff.mp hrev
  have := (List.mem_filter.mp hc).2
  simp at this
  omega

theorem simple_cycles_finite (hw : graph.WellFormed) {k : Nat} (hk : 2 ≤ k) :
    (simple_cycles graph k).Finite := by
  have hspec : ∀ r l, r :: l ∈ static_readings graph none k ↔
      (↑(r :: l) : Cycle Nat) ∈ simple_cycles graph k ∧ Smallest ↑(r :: l) r := fun r l =>
    (mem_static_readings hw hk r l).trans (and_iff_left (by simp))
  exact finite_of_readings (fun c r hr => hr.1) (fun c hc => exists_smallest (hc.2.1 ▸ hk)) hspec
    (not_mem_static_readings_nil hk)

theorem length_lt_of_simple_cycle (hw : graph.WellFormed) {k : Nat} (hk : 2 ≤ k) {c : Cycle Nat}
    (hc : c ∈ simple_cycles graph k) : k < 2 ^ 32 := by
  obtain ⟨hn, hlen, hchain⟩ := hc
  have htwo : 2 ≤ c.length := hlen ▸ hk
  rw [chain_iff_follows _ _ htwo] at hchain
  induction c using Quot.inductionOn with
  | _ l =>
      rw [← hlen]
      refine hw.narrow l (Cycle.nodup_coe_iff.mp hn) fun v hv => ?_
      obtain ⟨next, hf⟩ := exists_follower htwo hv
      obtain ⟨edge, he, -⟩ := hchain v next hf
      exact List.ne_nil_of_mem (hw.whole v ▸ he)

-- Up to the cap, a count adds up to the number of cycles of each length.
theorem static_tally_eq (hw : graph.WellFormed) {k : Nat} (hk : 2 ≤ k)
    (hcap : ∀ limit ∈ cap, k ≤ limit) :
    CycleHistogram.tally (static_events graph cap) k = (simple_cycles graph k).ncard := by
  rw [static_tally hw, eq_comm]
  have hlen : ∀ c ∈ simple_cycles graph k, 2 ≤ c.length := fun c hc => hc.2.1 ▸ hk
  refine ncard_eq_of_readings (static_readings_nodup hw k) (fun c hc => hc.1)
    (fun c r hr => hr.1) (fun c hc => exists_smallest (hlen c hc)) (fun c _ r r' => Smallest.unique)
    (fun r l => ?_) (not_mem_static_readings_nil hk)
  rw [mem_static_readings hw hk]
  exact and_iff_left hcap

-- Beyond the cap it adds nothing.
theorem static_tally_beyond (hw : graph.WellFormed) {k : Nat} (hk : 2 ≤ k)
    (hcap : ¬∀ limit ∈ cap, k ≤ limit) :
    CycleHistogram.tally (static_events graph cap) k = 0 := by
  rw [static_tally hw, List.length_eq_zero_iff, List.eq_nil_iff_forall_not_mem]
  intro l hl
  cases l with
  | nil => exact not_mem_static_readings_nil hk hl
  | cons r l => exact hcap ((mem_static_readings hw hk r l).mp hl).2

end CycleEnum.Sequential
