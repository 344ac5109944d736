import CycleEnum.Core.ReadGraph
import Mathlib.Data.List.Forall2

namespace CycleEnum

-- The lines that hold rows. The first line behind a banner that is not ignored
-- holds the dimensions.
def data_lines (text : List Char) : List (List Char) :=
  let lines := get_lines text
  if is_matrix_market lines then (lines.tail.filter fun line => !is_ignored_line line).tail
  else lines.filter fun line => !is_ignored_line line

-- The row that a line holds by its longest numeric parts.
def Extracts (matrix_market : Bool) (line : List Char) (row : RawTemporalEdge) : Prop :=
  ∃ first second, next_number (replace_commas line) = (some row.source, first) ∧
    next_number first = (some row.target, second) ∧
    row.timestamp =
      if matrix_market then kDefaultMissingTimestamp
      else (next_number second).1.getD kDefaultMissingTimestamp

section Row

variable {path : String} {matrix_market : Bool} {line_number : Nat} {line : List Char}

-- The numbers that a line starts with are the fields of its row.
theorem row_fields_iff {text first second third : List Char} {source target : Int}
    {timestamp : Option Int} {row : RawTemporalEdge}
    (hsource : next_number text = (some source, first))
    (htarget : next_number first = (some target, second))
    (htimestamp : next_number second = (timestamp, third)) :
    (∃ first second, next_number text = (some row.source, first) ∧
      next_number first = (some row.target, second) ∧
      (row.timestamp = if matrix_market then kDefaultMissingTimestamp
        else (next_number second).1.getD kDefaultMissingTimestamp) ∧
      (matrix_market = false → (next_number second).2.dropWhile is_space = [])) ↔
      ⟨source, target, if matrix_market then kDefaultMissingTimestamp
        else timestamp.getD kDefaultMissingTimestamp⟩ = row ∧
      (matrix_market = false → third.dropWhile is_space = []) := by
  obtain ⟨s, t, stamp⟩ := row
  constructor
  · rintro ⟨first', second', hs, ht, hstamp, hthird⟩
    obtain ⟨hsrc, rfl⟩ := Prod.mk.inj (hsource.symm.trans hs)
    obtain ⟨htgt, rfl⟩ := Prod.mk.inj (htarget.symm.trans ht)
    rw [htimestamp] at hthird hstamp
    exact ⟨RawTemporalEdge.mk.injEq .. ▸
      ⟨Option.some.inj hsrc, Option.some.inj htgt, hstamp.symm⟩, hthird⟩
  · rintro ⟨heq, hthird⟩
    obtain ⟨rfl, rfl, rfl⟩ := RawTemporalEdge.mk.inj heq
    exact ⟨first, second, hsource, htarget, by rw [htimestamp]; exact ⟨rfl, hthird⟩⟩

theorem read_row_eq_ok_iff {row : RawTemporalEdge} :
    read_row path matrix_market line_number line = .ok row ↔
      ∃ first second, next_number (replace_commas line) = (some row.source, first) ∧
        next_number first = (some row.target, second) ∧
        (row.timestamp = if matrix_market then kDefaultMissingTimestamp
          else (next_number second).1.getD kDefaultMissingTimestamp) ∧
        (matrix_market = false → (next_number second).2.dropWhile is_space = []) := by
  obtain ⟨source, first, hsource⟩ : ∃ source first,
      next_number (replace_commas line) = (source, first) := ⟨_, _, rfl⟩
  obtain ⟨target, second, htarget⟩ : ∃ target second,
      next_number first = (target, second) := ⟨_, _, rfl⟩
  obtain ⟨timestamp, third, htimestamp⟩ : ∃ timestamp third,
      next_number second = (timestamp, third) := ⟨_, _, rfl⟩
  obtain ⟨row₁, hrow₁, hrest₁, hfail₁, hopen₁⟩ :=
    (Stream.open_of_text (replace_commas line)).extract_integer hsource
  cases source with
  | none =>
      rw [read_row, hrow₁]
      simp [hsource]
  | some source =>
      obtain ⟨row₂, hrow₂, hrest₂, hfail₂, hopen₂⟩ :=
        (hopen₁ (by simp)).extract_integer (hrest₁ ▸ htarget)
      cases target with
      | none =>
          rw [read_row, hrow₁]
          simp only [hrow₂]
          simp [hsource, htarget]
      | some target =>
          obtain ⟨row₃, hrow₃, hrest₃, hfail₃, hopen₃⟩ :=
            (hopen₂ (by simp)).extract_integer (hrest₂ ▸ htimestamp)
          have hleft : ∀ row : Stream, row.Open → row.rest = third →
              row.extract_string.1.isSome = decide (third.dropWhile is_space ≠ []) :=
            fun row ho hr => hr ▸ ho.extract_string
          rw [row_fields_iff hsource htarget htimestamp, read_row, hrow₁]
          simp only [hrow₂]
          cases matrix_market with
          | true => simp
          | false =>
              simp only [Bool.false_eq_true, if_false]
              cases timestamp with
              | none =>
                  rw [hrow₃]
                  simp only [hleft _ (Stream.open_clear row₃) hrest₃]
                  by_cases hthird : third.dropWhile is_space = []
                  · simp [hthird]
                  · simp [hthird]
              | some timestamp =>
                  rw [hrow₃]
                  simp only [hleft _ (hopen₃ (by simp)) hrest₃]
                  by_cases hthird : third.dropWhile is_space = []
                  · simp [hthird]
                  · simp [hthird]

theorem read_row_error {matrix_market : Bool} {error : ReadError}
    (h : read_row path matrix_market line_number line = .error error) :
    ∃ what, error = .graph_parse_error what := by
  simp only [read_row, line_error] at h
  split at h
  · split at h
    · simp at h
    · split at h
      · split_ifs at h
        exact ⟨_, (Except.error.inj h).symm⟩
      · split_ifs at h
        exact ⟨_, (Except.error.inj h).symm⟩
  · exact ⟨_, (Except.error.inj h).symm⟩

-- Neither the path nor the number of the line changes the row.
theorem read_row_congr {row : RawTemporalEdge}
    (h : read_row path matrix_market line_number line = .ok row) (path' : String)
    (line_number' : Nat) : read_row path' matrix_market line_number' line = .ok row :=
  read_row_eq_ok_iff.mpr (read_row_eq_ok_iff.mp h)

theorem extracts_of_read_row {row : RawTemporalEdge}
    (h : read_row path matrix_market line_number line = .ok row) :
    Extracts matrix_market line row := by
  obtain ⟨first, second, hs, ht, hstamp, -⟩ := read_row_eq_ok_iff.mp h
  exact ⟨first, second, hs, ht, hstamp⟩

end Row

section Lines

variable {path : String} {matrix_market : Bool}

-- The lines that a loop still reads as rows.
def pending_lines (matrix_market : Bool) (rows : Rows) (lines : List (List Char)) :
    List (List Char) :=
  let left := lines.filter fun line => !is_ignored_line line
  if matrix_market && rows.mm_dimensions_pending then left.tail else left

-- Every line holds the row beside it.
abbrev Holds (path : String) (matrix_market : Bool) : List (List Char) → List RawTemporalEdge → Prop :=
  List.Forall₂ fun line row => read_row path matrix_market 0 line = .ok row

-- A line is passed over, or it holds a row, which may be a loop.
theorem read_line_cases (path : String) (matrix_market : Bool) (rows : Rows) (line : List Char) :
    (∃ next, read_line path matrix_market rows line = .ok next ∧
      next.raw_edges = rows.raw_edges ∧ ∀ lines,
        pending_lines matrix_market rows (line :: lines) =
          pending_lines matrix_market next lines) ∨
    (∀ lines, pending_lines matrix_market rows (line :: lines) =
      line :: lines.filter fun line => !is_ignored_line line) ∧
      ((∃ error, read_row path matrix_market (rows.line_number + 1) line = .error error ∧
        read_line path matrix_market rows line = .error error) ∨
      ∃ row next, read_row path matrix_market (rows.line_number + 1) line = .ok row ∧
        read_line path matrix_market rows line = .ok next ∧
        next.raw_edges = rows.raw_edges ++ kept_rows [row] ∧ ∀ lines,
          pending_lines matrix_market next lines =
            lines.filter fun line => !is_ignored_line line) := by
  cases hig : is_ignored_line line with
  | true =>
      refine Or.inl ⟨{ rows with line_number := rows.line_number + 1 }, ?_, rfl, fun lines => ?_⟩
      · simp [read_line, hig]
      · simp [pending_lines, hig]
  | false =>
      cases hdim : matrix_market && rows.mm_dimensions_pending with
      | true =>
          refine Or.inl ⟨⟨false, rows.line_number + 1, rows.raw_edges⟩, ?_, rfl, fun lines => ?_⟩
          · simp [read_line, hig, hdim]
          · simp [pending_lines, hig, hdim]
      | false =>
          refine Or.inr ⟨fun lines => by simp [pending_lines, hig, hdim], ?_⟩
          cases hrow : read_row path matrix_market (rows.line_number + 1) line with
          | error error =>
              refine Or.inl ⟨error, rfl, ?_⟩
              simp [read_line, hig, hdim, hrow, Except.map]
          | ok row =>
              by_cases hloop : row.source = row.target
              · refine Or.inr ⟨row, { rows with line_number := rows.line_number + 1 }, rfl, ?_, ?_,
                  fun lines => ?_⟩
                · simp [read_line, hig, hdim, hrow, hloop, Except.map]
                · simp [hloop, kept_rows]
                · simp [pending_lines, hdim]
              · refine Or.inr ⟨row, { rows with
                    line_number := rows.line_number + 1
                    raw_edges := rows.raw_edges ++ [row] }, rfl, ?_, ?_, fun lines => ?_⟩
                · simp [read_line, hig, hdim, hrow, hloop, Except.map]
                · simp [hloop, kept_rows]
                · simp [pending_lines, hdim]

theorem kept_rows_cons (row : RawTemporalEdge) (found : List RawTemporalEdge) :
    kept_rows (row :: found) = kept_rows [row] ++ kept_rows found := by
  rw [kept_rows, kept_rows, kept_rows, ← List.filter_append]
  rfl

theorem read_lines_eq_ok_iff {rows : Rows} {lines : List (List Char)}
    {raw_edges : List RawTemporalEdge} :
    (lines.foldlM (read_line path matrix_market) rows).map (·.raw_edges) = .ok raw_edges ↔
      ∃ found, Holds path matrix_market (pending_lines matrix_market rows lines) found ∧
        raw_edges = rows.raw_edges ++ kept_rows found := by
  induction lines generalizing rows with
  | nil =>
      have hnil : pending_lines matrix_market rows [] = [] := by simp [pending_lines]
      rw [hnil]
      constructor
      · intro h
        exact ⟨[], .nil, by simpa [kept_rows] using (Except.ok.inj h).symm⟩
      · rintro ⟨found, hfound, rfl⟩
        cases hfound
        simp [kept_rows, Except.map, pure, Except.pure]
  | cons line lines ih =>
      rw [List.foldlM_cons]
      rcases read_line_cases path matrix_market rows line with ⟨next, hstep, hedges, hpending⟩ |
        ⟨hpending, ⟨error, hrow, hstep⟩ | ⟨row, next, hrow, hstep, hedges, hleft⟩⟩
      · rw [hpending, ok_bind hstep, ih, hedges]
      · rw [hpending, hstep]
        constructor
        · intro h
          cases h
        · rintro ⟨found, hfound, -⟩
          obtain ⟨row, others, hhead, -, -⟩ := List.forall₂_cons_left_iff.mp hfound
          have hok := read_row_congr hhead path (rows.line_number + 1)
          rw [hrow] at hok
          cases hok
      · rw [hpending, ok_bind hstep, ih, hleft, hedges]
        constructor
        · rintro ⟨found, hfound, rfl⟩
          refine ⟨row :: found, .cons (read_row_congr hrow path 0) hfound, ?_⟩
          rw [kept_rows_cons row found, List.append_assoc]
        · rintro ⟨all, hall, rfl⟩
          obtain ⟨row', found, hhead, hfound, rfl⟩ := List.forall₂_cons_left_iff.mp hall
          obtain rfl : row = row' :=
            Except.ok.inj (hrow.symm.trans (read_row_congr hhead path _))
          exact ⟨found, hfound, by rw [kept_rows_cons row found, List.append_assoc]⟩

theorem read_lines_error {rows : Rows} {lines : List (List Char)} {error : ReadError}
    (h : lines.foldlM (read_line path matrix_market) rows = .error error) :
    ∃ what, error = .graph_parse_error what := by
  induction lines generalizing rows with
  | nil => simp [pure, Except.pure] at h
  | cons line lines ih =>
      rw [List.foldlM_cons] at h
      rcases read_line_cases path matrix_market rows line with ⟨next, hstep, -⟩ |
        ⟨-, ⟨first, hrow, hstep⟩ | ⟨row, next, -, hstep, -⟩⟩
      · rw [ok_bind hstep] at h
        exact ih h
      · rw [hstep] at h
        obtain rfl : first = error := Except.error.inj h
        exact read_row_error hrow
      · rw [ok_bind hstep] at h
        exact ih h

theorem read_raw_edges_eq_ok_iff {text : List Char} {raw_edges : List RawTemporalEdge} :
    read_raw_edges path text = .ok raw_edges ↔
      ∃ found, Holds path (is_matrix_market (get_lines text)) (data_lines text) found ∧
        raw_edges = kept_rows found := by
  cases hmm : is_matrix_market (get_lines text) with
  | true => simp [read_raw_edges, data_lines, hmm, read_lines_eq_ok_iff, pending_lines]
  | false => simp [read_raw_edges, data_lines, hmm, read_lines_eq_ok_iff, pending_lines]

theorem read_raw_edges_error {text : List Char} {error : ReadError}
    (h : read_raw_edges path text = .error error) : ∃ what, error = .graph_parse_error what := by
  rw [read_raw_edges] at h
  cases hmm : is_matrix_market (get_lines text) with
  | true =>
      rw [hmm] at h
      cases hlines : (get_lines text).tail.foldlM (read_line path true) ⟨true, 1, []⟩ with
      | ok rows => simp [hlines, Except.map] at h
      | error inner =>
          obtain rfl : inner = error := by simpa [hlines, Except.map] using h
          exact read_lines_error hlines
  | false =>
      rw [hmm] at h
      cases hlines : (get_lines text).foldlM (read_line path false) ⟨false, 0, []⟩ with
      | ok rows => simp [hlines, Except.map] at h
      | error inner =>
          obtain rfl : inner = error := by simpa [hlines, Except.map] using h
          exact read_lines_error hlines

end Lines

section Graph

variable {path : String} {text : List Char}

theorem mapM_ok {α β : Type} {f : α → Except ReadError β} {g : α → β} {l : List α}
    (h : ∀ a ∈ l, f a = .ok (g a)) : l.mapM f = .ok (l.map g) := by
  induction l with
  | nil => rfl
  | cons a l ih =>
      rw [List.mapM_cons, h a (by simp), ih fun b hb => h b (List.mem_cons_of_mem _ hb)]
      rfl

theorem compact_id_at_eq {external_ids : List Int} {external : Int} (h : external ∈ external_ids) :
    compact_id_at external_ids external = .ok (external_ids.idxOf external % 2 ^ 32) := by
  obtain ⟨index, hindex⟩ := Option.isSome_iff_exists.mp (List.isSome_idxOf?.mpr h)
  rw [compact_id_at, hindex, List.idxOf_eq_getD_idxOf?, hindex]
  rfl

-- The loop that compacts ids finds every one of them.
theorem compact_raw_edges (raw_edges : List RawTemporalEdge) :
    raw_edges.mapM (compact_raw_edge (external_ids_of raw_edges)) =
      .ok (raw_edges.map fun raw_edge =>
        (((external_ids_of raw_edges).idxOf raw_edge.source % 2 ^ 32,
          (external_ids_of raw_edges).idxOf raw_edge.target % 2 ^ 32), raw_edge.timestamp)) := by
  refine mapM_ok fun raw_edge hraw => ?_
  obtain ⟨hs, ht⟩ := mem_external_ids_of raw_edges raw_edge hraw
  rw [compact_raw_edge, compact_id_at_eq hs, compact_id_at_eq ht]
  rfl

theorem group_compact_edges {raw_edges : List RawTemporalEdge}
    (h : (external_ids_of raw_edges).length ≤ 2 ^ 32) (hkept : kept_rows raw_edges = raw_edges) :
    ⟨external_ids_of raw_edges, group_edges (raw_edges.map fun raw_edge =>
      (((external_ids_of raw_edges).idxOf raw_edge.source % 2 ^ 32,
        (external_ids_of raw_edges).idxOf raw_edge.target % 2 ^ 32), raw_edge.timestamp))⟩ =
      graph_of_rows raw_edges := by
  have hsmall : ∀ raw_edge ∈ raw_edges,
      (((external_ids_of raw_edges).idxOf raw_edge.source % 2 ^ 32,
        (external_ids_of raw_edges).idxOf raw_edge.target % 2 ^ 32), raw_edge.timestamp) =
      (compact_endpoints (external_ids_of raw_edges) raw_edge, raw_edge.timestamp) := by
    intro raw_edge hraw
    obtain ⟨hs, ht⟩ := mem_external_ids_of raw_edges raw_edge hraw
    have hs := List.idxOf_lt_length_of_mem hs
    have ht := List.idxOf_lt_length_of_mem ht
    rw [Nat.mod_eq_of_lt (by omega), Nat.mod_eq_of_lt (by omega)]
    rfl
  rw [graph_of_rows, hkept, List.map_congr_left hsmall, group_edges]
  simp only [List.map_map, List.filter_map, grouped_timestamps]
  rfl

-- What reading a file comes to.
theorem read_temporal_graph_eq_ok_iff {graph : TemporalGraph} :
    read_temporal_graph path (some text) = .ok graph ↔
      ∃ found, Holds path (is_matrix_market (get_lines text)) (data_lines text) found ∧
        graph = parsed_graph found := by
  constructor
  · intro h
    cases hraw : read_raw_edges path text with
    | error error => simp [read_temporal_graph, hraw, bind, Except.bind] at h
    | ok raw_edges =>
        obtain ⟨found, hfound, rfl⟩ := read_raw_edges_eq_ok_iff.mp hraw
        simp only [read_temporal_graph, hraw, bind, Except.bind, compact_raw_edges, pure,
          Except.pure] at h
        exact ⟨found, hfound, (Except.ok.inj h).symm⟩
  · rintro ⟨found, hfound, rfl⟩
    have hraw := read_raw_edges_eq_ok_iff.mpr ⟨found, hfound, rfl⟩
    simp only [read_temporal_graph, hraw, bind, Except.bind, compact_raw_edges, pure, Except.pure,
      parsed_graph]

theorem read_temporal_graph_error {error : ReadError}
    (h : read_temporal_graph path (some text) = .error error) :
    ∃ what, error = .graph_parse_error what := by
  cases hraw : read_raw_edges path text with
  | ok raw_edges =>
      simp [read_temporal_graph, hraw, bind, Except.bind, compact_raw_edges, pure, Except.pure] at h
  | error inner =>
      obtain rfl : inner = error := by simpa [read_temporal_graph, hraw, bind, Except.bind] using h
      exact read_raw_edges_error hraw

end Graph

end CycleEnum
