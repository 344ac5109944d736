import CycleEnum.Cuda.KernelRun
import Mathlib.Algebra.BigOperators.Group.Finset.Piecewise

namespace CycleEnum.Cuda

open Parallel

variable {R M E : Type} {kernel : Kernel R M E} {launch : Launch} {max_cycle_length : Nat}
  {grid next : Grid R M} {thread : Nat} {events : List E} {trace : List (Nat × E)}

-- How often the threads of a block, or all of them, have counted in a slot.
def block_count (launch : Launch) (bin : E → Option Nat) (block slot : Nat) (trace : List (Nat × E)) :
    Nat :=
  ((trace.filter fun item => launch.block item.1 = block).filterMap fun item => bin item.2).count slot

def total_count (bin : E → Option Nat) (slot : Nat) (trace : List (Nat × E)) : Nat :=
  (trace.filterMap fun item => bin item.2).count slot

theorem block_count_append (bin : E → Option Nat) (block slot : Nat) (trace : List (Nat × E))
    (thread : Nat) (events : List E) :
    block_count launch bin block slot (trace ++ events.map (thread, ·)) =
      block_count launch bin block slot trace +
        if launch.block thread = block then (events.filterMap bin).count slot else 0 := by
  unfold block_count
  rw [List.filter_append, List.filterMap_append, List.count_append]
  congr 1
  by_cases hb : launch.block thread = block
  · rw [if_pos hb, List.filter_eq_self.mpr, List.filterMap_map]
    · rfl
    · intro item hi
      obtain ⟨event, -, rfl⟩ := List.mem_map.mp hi
      simpa using hb
  · rw [if_neg hb, List.filter_eq_nil_iff.mpr]
    · rfl
    · intro item hi
      obtain ⟨event, -, rfl⟩ := List.mem_map.mp hi
      simpa using hb

theorem block_count_eq_zero {bin : E → Option Nat} {block slot : Nat}
    (h : ∀ item ∈ trace, launch.block item.1 ≠ block) :
    block_count launch bin block slot trace = 0 := by
  rw [block_count, List.filter_eq_nil_iff.mpr (by simpa using h)]
  rfl

theorem count_filterMap_cons {α : Type} (f : α → Option Nat) (slot : Nat) (a : α) (as : List α) :
    ((a :: as).filterMap f).count slot = (f a).toList.count slot + (as.filterMap f).count slot := by
  cases h : f a with
  | none => simp [h]
  | some b => rw [List.filterMap_cons_some h, ← List.singleton_append, List.count_append]; rfl

-- The blocks' counts are all counts.
theorem sum_block_count (bin : E → Option Nat) (slot : Nat)
    (h : ∀ item ∈ trace, item.1 < launch.threads) :
    ∑ block ∈ Finset.range launch.grid_blocks, block_count launch bin block slot trace =
      total_count bin slot trace := by
  induction trace with
  | nil => simp [block_count, total_count]
  | cons item trace ih =>
      have hlt := Launch.block_lt (h item (by simp))
      have hone : ∀ block, block_count launch bin block slot (item :: trace) =
          (if block = launch.block item.1 then (bin item.2).toList.count slot else 0) +
            block_count launch bin block slot trace := by
        intro block
        unfold block_count
        by_cases hb : launch.block item.1 = block
        · rw [List.filter_cons_of_pos (by simpa using hb), if_pos hb.symm, count_filterMap_cons]
        · rw [List.filter_cons_of_neg (by simpa using hb), if_neg (Ne.symm hb), Nat.zero_add]
      rw [Finset.sum_congr rfl fun block _ => hone block, Finset.sum_add_distrib,
        ih fun item hi => h item (List.mem_cons_of_mem _ hi), Finset.sum_ite_eq',
        if_pos (Finset.mem_range.mpr hlt), total_count, total_count, count_filterMap_cons]

theorem increments_eq (lengths : List Nat) (block_histogram : Nat → Nat) {slot count : Nat}
    (h : block_histogram slot = wrap count) :
    lengths.foldl increment_block_histogram block_histogram slot = wrap (count + lengths.count slot) := by
  induction lengths generalizing block_histogram count with
  | nil => simpa using h
  | cons length lengths ih =>
      rw [List.foldl_cons, List.count_cons]
      by_cases hl : length = slot
      · subst hl
        have hone : increment_block_histogram block_histogram length length = wrap (count + 1) := by
          rw [increment_block_histogram, Function.update_self, h, wrap_add]
        rw [ih _ hone, if_pos (by simp)]
        congr 1
        omega
      · have hsame : increment_block_histogram block_histogram length slot = wrap count := by
          rw [increment_block_histogram, Function.update_of_ne (Ne.symm hl), h]
        rw [ih _ hsame, if_neg (by simpa using hl), Nat.add_zero]

theorem has_cleared_of_rank {phase : Phase R} (slot : Nat) (h : 1 ≤ phase.rank) :
    phase.has_cleared slot = true := by
  cases phase with
  | clearing index => exact absurd h (by simp [Phase.rank])
  | cleared => rfl
  | working registers => rfl
  | worked => rfl
  | flushing index => rfl
  | finished => rfl

theorem has_flushed_of_rank {phase : Phase R} (slot : Nat) (h : phase.rank < 4) :
    phase.has_flushed slot = false := by
  cases phase with
  | clearing index => rfl
  | cleared => rfl
  | working registers => rfl
  | worked => rfl
  | flushing index => exact absurd h (by simp [Phase.rank])
  | finished => exact absurd h (by simp [Phase.rank])

-- Two slots of one thread are a whole block apart.
theorem le_of_index_eq {slot index : Nat} (h : launch.index slot = launch.index index)
    (hlt : slot < index + launch.block_size) : slot ≤ index := by
  by_contra hgt
  have hdvd : launch.block_size ∣ slot - index := Nat.dvd_of_mod_eq_zero (Nat.sub_mod_eq_zero_of_mod_eq h)
  have := Nat.le_of_dvd (by omega) hdvd
  omega

theorem owner_ne (hpos : 0 < launch.block_size) {block slot : Nat}
    (hblock : block ≠ launch.block thread) : launch.owner block slot ≠ thread := fun ho =>
  hblock ((Launch.owner_eq_iff hpos).mp ho).1.symm

theorem flush_slot_of_ne (histogram block_histogram : Nat → Nat) {slot index : Nat}
    (hslot : slot ≠ index) : flush_slot histogram block_histogram index slot = histogram slot := by
  unfold flush_slot
  split_ifs
  · rw [Function.update_of_ne hslot]
  · rfl

theorem flush_slot_self {histogram : Nat → Nat} (block_histogram : Nat → Nat) {slot total : Nat}
    (h : histogram slot = wrap total) :
    flush_slot histogram block_histogram slot slot = wrap (total + block_histogram slot) := by
  rw [flush_slot, ← wrap_add total, ← h]
  by_cases hzero : block_histogram slot = 0
  · rw [if_neg (by simpa using hzero), hzero, Nat.add_zero, h]
    exact (Nat.mod_mod _ _).symm
  · rw [if_pos hzero, Function.update_self]

-- A thread behind a barrier has its whole block behind the barrier before.
def Barriers (launch : Launch) (phases : Nat → Phase R) : Prop :=
  ∀ thread other, launch.block other = launch.block thread →
    (2 ≤ (phases thread).rank → 1 ≤ (phases other).rank) ∧
      (4 ≤ (phases thread).rank → 3 ≤ (phases other).rank)

theorem Barriers.goto {phases : Nat → Phase R} {phase : Phase R} (h : Barriers launch phases)
    (hup : (phases thread).rank ≤ phase.rank)
    (hpass : ∀ other, launch.block other = launch.block thread →
      (2 ≤ phase.rank → 1 ≤ (phases other).rank) ∧ (4 ≤ phase.rank → 3 ≤ (phases other).rank)) :
    Barriers launch (Function.update phases thread phase) := by
  have hrank : ∀ other, (phases other).rank ≤ (Function.update phases thread phase other).rank := by
    intro other
    by_cases ho : other = thread
    · subst ho
      rwa [Function.update_self]
    · rw [Function.update_of_ne ho]
  intro moved other hb
  by_cases hm : moved = thread
  · subst hm
    rw [Function.update_self]
    obtain ⟨h₁, h₂⟩ := hpass other hb
    exact ⟨fun hr => (h₁ hr).trans (hrank other), fun hr => (h₂ hr).trans (hrank other)⟩
  · rw [Function.update_of_ne hm]
    obtain ⟨h₁, h₂⟩ := h moved other hb
    exact ⟨fun hr => (h₁ hr).trans (hrank other), fun hr => (h₂ hr).trans (hrank other)⟩

-- A thread's index in the loop over the slots is one of those that fall to it.
def Aligned (launch : Launch) (thread : Nat) : Phase R → Prop
  | .clearing index => launch.index index = launch.index thread
  | .flushing index => launch.index index = launch.index thread
  | _ => True

-- What a block has added to the global histogram at a slot.
def flushed_count (launch : Launch) (bin : E → Option Nat) (trace : List (Nat × E))
    (phases : Nat → Phase R) (slot block : Nat) : Nat :=
  if (phases (launch.owner block slot)).has_flushed slot then block_count launch bin block slot trace
  else 0

-- A block joins the flushed ones at a slot of a thread that flushes it.
theorem flushed_count_flush {index : Nat} {phases : Nat → Phase R} (bin : E → Option Nat)
    (hpos : 0 < launch.block_size) (hown : launch.owner (launch.block thread) index = thread)
    (hat : phases thread = .flushing index) (block : Nat) :
    flushed_count launch bin trace
        (Function.update phases thread (.flushing (index + launch.block_size))) index block =
      flushed_count launch bin trace phases index block +
        if block = launch.block thread then block_count launch bin (launch.block thread) index trace
        else 0 := by
  unfold flushed_count
  by_cases hb : block = launch.block thread
  · subst hb
    rw [hown, Function.update_self, hat]
    simp [Phase.has_flushed, hpos]
  · rw [Function.update_of_ne (owner_ne hpos hb), if_neg hb, Nat.add_zero]

-- The state of the histograms while a kernel runs.
structure Accounted (kernel : Kernel R M E) (launch : Launch) (max_cycle_length : Nat)
    (grid : Grid R M) (trace : List (Nat × E)) : Prop where
  barriers : Barriers launch grid.phases
  aligned : ∀ thread, Aligned launch thread (grid.phases thread)
  worked : ∀ item ∈ trace, item.1 < launch.threads ∧ 2 ≤ (grid.phases item.1).rank
  cleared : ∀ block < launch.grid_blocks, ∀ slot ≤ max_cycle_length,
    (grid.phases (launch.owner block slot)).has_cleared slot = true →
      grid.block_histograms block slot = wrap (block_count launch kernel.bin block slot trace)
  flushed : ∀ slot ≤ max_cycle_length, grid.histogram slot =
    wrap (∑ block ∈ Finset.range launch.grid_blocks,
      flushed_count launch kernel.bin trace grid.phases slot block)

theorem accounted_initial (block_histograms : Nat → Nat → Nat) (memory : M) :
    Accounted kernel launch max_cycle_length (Grid.initial launch block_histograms memory) [] where
  barriers thread other _ :=
    ⟨fun h => absurd h (by simp [Grid.initial, Phase.rank]),
      fun h => absurd h (by simp [Grid.initial, Phase.rank])⟩
  aligned thread := Nat.mod_mod _ _
  worked item hi := by simp at hi
  cleared block hb slot hs h := by
    have hle : launch.index (launch.owner block slot) ≤ slot := by
      have hmod : launch.index (launch.owner block slot) = launch.index slot := by
        rw [Launch.owner, Launch.index, Nat.add_comm, Nat.add_mul_mod_self_right]
        exact Nat.mod_mod _ _
      rw [hmod]
      exact Nat.mod_le _ _
    simp only [Grid.initial, Phase.has_cleared, decide_eq_true_eq] at h
    omega
  flushed slot _ := by simp [Grid.initial, flushed_count, Phase.has_flushed, wrap]

section Step

variable (ha : Accounted kernel launch max_cycle_length grid trace) (ht : thread < launch.threads)
  {phase : Phase R}

include ha

-- Only its own counting has been done by a block before a thread of it has cleared.
theorem Accounted.block_count_eq_zero (hr : (grid.phases thread).rank = 0) (slot : Nat) :
    block_count launch kernel.bin (launch.block thread) slot trace = 0 := by
  refine Cuda.block_count_eq_zero fun item hi hb => ?_
  have hrank := (ha.barriers item.1 thread hb.symm).1 (ha.worked item hi).2
  omega

theorem Accounted.worked_goto (hup : (grid.phases thread).rank ≤ phase.rank) :
    ∀ item ∈ trace, item.1 < launch.threads ∧
      2 ≤ (Function.update grid.phases thread phase item.1).rank := by
  intro item hi
  obtain ⟨hlt, hrank⟩ := ha.worked item hi
  refine ⟨hlt, ?_⟩
  by_cases hitem : item.1 = thread
  · rw [hitem] at hrank ⊢
    rw [Function.update_self]
    omega
  · rwa [Function.update_of_ne hitem]

theorem Accounted.aligned_goto (hal : Aligned launch thread phase) (other : Nat) :
    Aligned launch other (Function.update grid.phases thread phase other) := by
  by_cases ho : other = thread
  · subst ho
    rwa [Function.update_self]
  · rw [Function.update_of_ne ho]
    exact ha.aligned other

include ht

-- The flushed counts where the thread has flushed the same slots as before.
theorem Accounted.flushed_goto {slot : Nat} (hs : slot ≤ max_cycle_length)
    (hflushed : launch.index thread = launch.index slot →
      phase.has_flushed slot = (grid.phases thread).has_flushed slot) :
    grid.histogram slot = wrap (∑ block ∈ Finset.range launch.grid_blocks,
      flushed_count launch kernel.bin trace (Function.update grid.phases thread phase) slot block) := by
  refine (ha.flushed slot hs).trans (congrArg wrap (Finset.sum_congr rfl fun block _ => ?_))
  unfold flushed_count
  by_cases ho : launch.owner block slot = thread
  · have hidx := ((Launch.owner_eq_iff (Launch.block_size_pos ht)).mp ho).2
    rw [ho, Function.update_self, hflushed hidx]
  · rw [Function.update_of_ne ho]

-- A step that leaves the histograms alone.
theorem Accounted.goto (hup : (grid.phases thread).rank ≤ phase.rank)
    (hpass : ∀ other, launch.block other = launch.block thread →
      (2 ≤ phase.rank → 1 ≤ (grid.phases other).rank) ∧
        (4 ≤ phase.rank → 3 ≤ (grid.phases other).rank))
    (hal : Aligned launch thread phase)
    (hcleared : ∀ slot ≤ max_cycle_length, phase.has_cleared slot = true →
      (grid.phases thread).has_cleared slot = true)
    (hflushed : ∀ slot ≤ max_cycle_length, launch.index thread = launch.index slot →
      phase.has_flushed slot = (grid.phases thread).has_flushed slot) :
    Accounted kernel launch max_cycle_length (grid.goto thread phase) trace where
  barriers := ha.barriers.goto hup hpass
  aligned := ha.aligned_goto hal
  worked := ha.worked_goto hup
  cleared block hb slot hs hc := by
    apply ha.cleared block hb slot hs
    by_cases ho : launch.owner block slot = thread
    · rw [ho] at hc ⊢
      exact hcleared slot hs (by simpa using hc)
    · simpa [Function.update_of_ne ho] using hc
  flushed slot hs := ha.flushed_goto ht hs (hflushed slot hs)

theorem Accounted.clear {index : Nat} (hat : grid.phases thread = .clearing index) :
    Accounted kernel launch max_cycle_length
      { grid.goto thread (.clearing (index + launch.block_size)) with
        block_histograms := Function.update grid.block_histograms (launch.block thread)
          (Function.update (grid.block_histograms (launch.block thread)) index 0) } trace where
  barriers := ha.barriers.goto (by rw [hat]; exact Nat.le_refl _) fun other _ =>
    ⟨fun h => absurd h (by simp [Phase.rank]), fun h => absurd h (by simp [Phase.rank])⟩
  aligned := ha.aligned_goto (by
    have hal := ha.aligned thread
    rw [hat] at hal
    exact (Nat.add_mod_right index _).trans hal)
  worked := ha.worked_goto (by rw [hat]; exact Nat.le_refl _)
  cleared block hb slot hs hc := by
    have hpos := Launch.block_size_pos ht
    have hal := ha.aligned thread
    rw [hat] at hal
    have hcount : block_count launch kernel.bin (launch.block thread) slot trace = 0 :=
      ha.block_count_eq_zero (by rw [hat]; rfl) slot
    by_cases hblock : block = launch.block thread
    · subst hblock
      by_cases hslot : slot = index
      · subst hslot
        simp [hcount, wrap]
      · dsimp only
        rw [Function.update_self, Function.update_of_ne hslot]
        apply ha.cleared _ hb slot hs
        by_cases ho : launch.owner (launch.block thread) slot = thread
        · -- the next slot of the thread is a block further
          have hidx := ((Launch.owner_eq_iff hpos).mp ho).2
          have hnear := le_of_index_eq (hidx.symm.trans hal.symm)
          rw [ho, hat]
          simp only [ho, Grid.goto_phases, Function.update_self, Phase.has_cleared,
            decide_eq_true_eq] at hc ⊢
          have := hnear hc
          omega
        · simpa [Function.update_of_ne ho] using hc
    · dsimp only
      rw [Function.update_of_ne hblock]
      apply ha.cleared block hb slot hs
      have ho : launch.owner block slot ≠ thread := owner_ne hpos hblock
      simpa [Function.update_of_ne ho] using hc
  flushed slot hs := ha.flushed_goto ht hs fun _ => by rw [hat]; rfl

theorem Accounted.flush {index : Nat} (hat : grid.phases thread = .flushing index)
    (hle : index ≤ max_cycle_length) :
    Accounted kernel launch max_cycle_length
      { grid.goto thread (.flushing (index + launch.block_size)) with
        histogram := flush_slot grid.histogram (grid.block_histograms (launch.block thread)) index }
      trace where
  barriers := ha.barriers.goto (by rw [hat]; exact Nat.le_refl _) fun other hb => by
    obtain ⟨h₁, h₂⟩ := ha.barriers thread other hb
    rw [hat] at h₁ h₂
    exact ⟨fun _ => h₁ (by simp [Phase.rank]), fun _ => h₂ (by simp [Phase.rank])⟩
  aligned := ha.aligned_goto (by
    have hal := ha.aligned thread
    rw [hat] at hal
    exact (Nat.add_mod_right index _).trans hal)
  worked := ha.worked_goto (by rw [hat]; exact Nat.le_refl _)
  cleared block hb slot hs hc := by
    apply ha.cleared block hb slot hs
    by_cases ho : launch.owner block slot = thread
    · rw [ho, hat]
      rfl
    · simpa [Function.update_of_ne ho] using hc
  flushed slot hs := by
    have hpos := Launch.block_size_pos ht
    have hal := ha.aligned thread
    rw [hat] at hal
    have hown : launch.owner (launch.block thread) index = thread :=
      (Launch.owner_eq_iff hpos).mpr ⟨rfl, hal.symm⟩
    by_cases hslot : slot = index
    · subst hslot
      have hblock := ha.cleared _ (Launch.block_lt ht) slot hs (by rw [hown, hat]; rfl)
      dsimp only
      rw [Grid.goto_phases,
        Finset.sum_congr rfl fun block _ => flushed_count_flush kernel.bin hpos hown hat block,
        Finset.sum_add_distrib, Finset.sum_ite_eq',
        if_pos (Finset.mem_range.mpr (Launch.block_lt ht)), ← add_wrap, ← hblock]
      exact flush_slot_self _ (ha.flushed slot hs)
    · dsimp only
      rw [flush_slot_of_ne _ _ hslot]
      refine ha.flushed_goto ht hs fun hidx => ?_
      have hnear := le_of_index_eq (hidx.symm.trans hal.symm)
      rw [hat, Phase.has_flushed, Phase.has_flushed, Bool.eq_iff_iff, decide_eq_true_eq,
        decide_eq_true_eq]
      constructor
      · intro hlt
        have := hnear hlt
        omega
      · intro hlt
        omega

theorem Accounted.work {registers : R} (hat : grid.phases thread = .working registers) :
    Accounted kernel launch max_cycle_length
      { grid.goto thread
          ((kernel.work thread registers grid.memory).registers.elim .worked .working) with
        block_histograms := Function.update grid.block_histograms (launch.block thread)
          (((kernel.work thread registers grid.memory).events.filterMap kernel.bin).foldl
            increment_block_histogram (grid.block_histograms (launch.block thread)))
        memory := (kernel.work thread registers grid.memory).memory }
      (trace ++ (kernel.work thread registers grid.memory).events.map (thread, ·)) := by
  generalize kernel.work thread registers grid.memory = effect
  have hpos := Launch.block_size_pos ht
  obtain ⟨phase, hphase⟩ : ∃ phase : Phase R, effect.registers.elim .worked .working = phase :=
    ⟨_, rfl⟩
  have hkind : (2 ≤ phase.rank ∧ phase.rank < 4) ∧ ∀ slot, phase.has_flushed slot = false := by
    subst hphase
    cases effect.registers with
    | none => exact ⟨by simp [Phase.rank], fun _ => rfl⟩
    | some next => exact ⟨by simp [Phase.rank], fun _ => rfl⟩
  have hrank : (grid.phases thread).rank = 2 := by rw [hat]; rfl
  have hbarrier : ∀ other, launch.block other = launch.block thread →
      1 ≤ (grid.phases other).rank ∧ (grid.phases other).rank < 4 := by
    intro other hb
    refine ⟨(ha.barriers thread other hb).1 (by omega), ?_⟩
    have := (ha.barriers other thread hb.symm).2
    omega
  rw [hphase]
  refine ⟨ha.barriers.goto (by omega) fun other hb => ⟨fun _ => (hbarrier other hb).1, by omega⟩,
    ha.aligned_goto ?_, ?_, ?_, ?_⟩
  · subst hphase
    cases effect.registers with
    | none => exact trivial
    | some next => exact trivial
  · intro item hi
    rcases List.mem_append.mp hi with hi | hi
    · exact ha.worked_goto (by omega) item hi
    · obtain ⟨event, -, rfl⟩ := List.mem_map.mp hi
      refine ⟨ht, ?_⟩
      simpa using hkind.1.1
  · intro block hb slot hs hc
    rw [block_count_append]
    by_cases hblock : block = launch.block thread
    · subst hblock
      have hown : launch.block (launch.owner (launch.block thread) slot) = launch.block thread :=
        ((Launch.owner_eq_iff hpos).mp rfl).1
      have hcleared := has_cleared_of_rank slot (hbarrier _ hown).1
      dsimp only
      rw [Function.update_self, if_pos rfl]
      exact increments_eq _ _ (ha.cleared _ hb slot hs hcleared)
    · have ho : launch.owner block slot ≠ thread := owner_ne hpos hblock
      dsimp only
      rw [Function.update_of_ne hblock, if_neg (Ne.symm hblock), Nat.add_zero]
      apply ha.cleared block hb slot hs
      simpa [Function.update_of_ne ho] using hc
  · intro slot hs
    refine (ha.flushed slot hs).trans (congrArg wrap (Finset.sum_congr rfl fun block _ => ?_))
    rw [Grid.goto_phases, flushed_count, flushed_count, block_count_append]
    by_cases hblock : block = launch.block thread
    · subst hblock
      have hown : launch.block (launch.owner (launch.block thread) slot) = launch.block thread :=
        ((Launch.owner_eq_iff hpos).mp rfl).1
      have hold := has_flushed_of_rank slot (hbarrier _ hown).2
      have hnew : (Function.update grid.phases thread phase
          (launch.owner (launch.block thread) slot)).has_flushed slot = false := by
        by_cases ho : launch.owner (launch.block thread) slot = thread
        · rw [ho, Function.update_self]
          exact hkind.2 slot
        · rw [Function.update_of_ne ho]
          exact hold
      rw [hold, hnew, if_neg Bool.false_ne_true, if_neg Bool.false_ne_true]
    · have ho : launch.owner block slot ≠ thread := owner_ne hpos hblock
      rw [Function.update_of_ne ho, if_neg (Ne.symm hblock), Nat.add_zero]

theorem Accounted.step (h : Steps kernel launch max_cycle_length grid thread next events) :
    Accounted kernel launch max_cycle_length next (trace ++ events.map (thread, ·)) := by
  have hpos := Launch.block_size_pos ht
  cases h with
  | clear hat hle => simpa using ha.clear ht hat
  | @sync index hat hlt =>
      rw [List.map_nil, List.append_nil]
      refine ha.goto ht (by rw [hat]; simp [Phase.rank])
        (fun other _ => ⟨fun h => absurd h (by simp [Phase.rank]),
          fun h => absurd h (by simp [Phase.rank])⟩) trivial (fun slot hs _ => ?_)
        fun slot hs _ => by rw [hat]; rfl
      rw [hat]
      simp only [Phase.has_cleared, decide_eq_true_eq]
      omega
  | enter hat hcome =>
      rw [List.map_nil, List.append_nil]
      refine ha.goto ht (by rw [hat]; simp [Phase.rank])
        (fun other hb => ⟨fun _ => (arrived_iff hpos).mp hcome other hb,
          fun h => absurd h (by simp [Phase.rank])⟩) trivial (fun slot hs _ => by rw [hat]; rfl)
        fun slot hs _ => by rw [hat]; rfl
  | work hat => exact ha.work ht hat
  | leave hat hcome =>
      rw [List.map_nil, List.append_nil]
      have hranks := fun other hb => (arrived_iff hpos).mp hcome other hb
      refine ha.goto ht (by rw [hat]; simp [Phase.rank])
        (fun other hb => ⟨fun _ => le_trans (by omega) (hranks other hb), fun _ => hranks other hb⟩)
        (Nat.mod_mod _ _) (fun slot hs _ => by rw [hat]; rfl) fun slot hs hidx => ?_
      have hle : launch.index slot ≤ slot := Nat.mod_le _ _
      rw [hat, hidx]
      change decide (slot < launch.index slot) = false
      rw [decide_eq_false_iff_not]
      omega
  | flush hat hle => simpa using ha.flush ht hat hle
  | @finish index hat hlt =>
      rw [List.map_nil, List.append_nil]
      refine ha.goto ht (by rw [hat]; simp [Phase.rank])
        (fun other hb => ?_) trivial (fun slot hs _ => by rw [hat]; rfl) fun slot hs _ => ?_
      · obtain ⟨h₁, h₂⟩ := ha.barriers thread other hb
        rw [hat] at h₁ h₂
        exact ⟨fun _ => h₁ (by simp [Phase.rank]), fun _ => h₂ (by simp [Phase.rank])⟩
      · rw [hat]
        change true = decide (slot < index)
        rw [eq_comm, decide_eq_true_eq]
        omega

end Step

-- When all threads have finished, the global histogram holds what they counted.
theorem Accounted.finished (ha : Accounted kernel launch max_cycle_length grid trace)
    (hpos : 0 < launch.block_size) (hdone : grid.Finished launch) {slot : Nat}
    (hs : slot ≤ max_cycle_length) :
    grid.histogram slot = wrap (total_count kernel.bin slot trace) := by
  rw [ha.flushed slot hs, ← sum_block_count kernel.bin slot fun item hi => (ha.worked item hi).1]
  refine congrArg wrap (Finset.sum_congr rfl fun block hb => ?_)
  rw [flushed_count, hdone _ (Launch.owner_lt hpos (Finset.mem_range.mp hb))]
  rfl

end CycleEnum.Cuda
