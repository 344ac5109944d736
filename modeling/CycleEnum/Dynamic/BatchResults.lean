import CycleEnum.Dynamic.BatchGenerator

namespace CycleEnum.Dynamic

open CycleEnum.Sequential

variable {view : GraphView} {params : BatchParams} {draws : Draws} {fuel : Nat}

theorem sample_insertions_add {vertex : Nat → Nat} {existing : List Nat}
    {num_insertions attempt_cap drawn attempts : Nat} {chosen : List Nat}
    {insertions : List EdgeChange} {result : Except Error (List EdgeChange)}
    (h : sample_insertions vertex existing num_insertions attempt_cap fuel drawn attempts chosen
      insertions = some result) (more : Nat) :
    sample_insertions vertex existing num_insertions attempt_cap (fuel + more) drawn attempts chosen
      insertions = some result := by
  induction fuel generalizing drawn attempts chosen insertions with
  | zero => cases h
  | succ fuel ih =>
      rw [sample_insertions] at h
      rw [Nat.add_right_comm, sample_insertions]
      dsimp only at h ⊢
      split_ifs at h ⊢
      · exact h
      · exact ih h
      · exact ih h
      · exact h

theorem choose_insertions_add {existing : List Nat} {window : Window} {num_insertions : Nat}
    {result : Except Error (List EdgeChange)}
    (h : choose_insertions draws fuel existing window num_insertions = some result) (more : Nat) :
    choose_insertions draws (fuel + more) existing window num_insertions = some result := by
  unfold choose_insertions at h ⊢
  split_ifs at h ⊢
  · exact sample_insertions_add h more
  · exact h

theorem generate_batch_add {result : Except Error EdgeBatch}
    (h : generate_batch draws fuel view params = some result) (more : Nat) :
    generate_batch draws (fuel + more) view params = some result := by
  by_cases hnone : params.num_deletions = 0 ∧ params.num_insertions = 0
  · rw [generate_batch, if_pos hnone] at h ⊢
    exact h
  by_cases hfew : view.vertex_count < 2
  · rw [generate_batch, if_neg hnone, if_pos hfew] at h ⊢
    exact h
  cases hloop : vertex_loop view.vertex_count (gather_row view) fuel 0 ⟨[], []⟩ with
  | none =>
      rw [generate_batch, if_neg hnone, if_neg hfew, hloop] at h
      cases h
  | some gathered =>
      rw [generate_batch_run hnone hfew hloop] at h
      rw [generate_batch_run hnone hfew (vertex_loop_add hloop more)]
      cases hdeletions : choose_deletions draws gathered.existing_edges
          (draw_window draws view.vertex_count params.locality_window) params.num_deletions with
      | error error =>
          rw [hdeletions] at h
          exact h
      | ok deletions =>
          rw [hdeletions] at h
          obtain ⟨insertions, hinsertions, rfl⟩ := Option.map_eq_some_iff.mp h
          exact Option.map_eq_some_iff.mpr ⟨insertions, choose_insertions_add hinsertions more, rfl⟩

-- However long it runs, the generator comes to a batch as promised or to its exception.
theorem generate_batch_cases (hview : Parsed view) (hcount : view.vertex_count < 2 ^ 32)
    {result : Except Error EdgeBatch} (h : generate_batch draws fuel view params = some result) :
    Rejects result (Generated view params) := by
  obtain ⟨enough, found, hfound, hrejects⟩ := generate_batch_rejects hview hcount params draws
  have heq := generate_batch_add hfound fuel
  rw [Nat.add_comm, generate_batch_add h enough] at heq
  obtain rfl := Option.some.inj heq
  exact hrejects

end CycleEnum.Dynamic
