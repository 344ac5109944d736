import CycleEnum.Core.Lossless
import CycleEnum.Core.Transpose
import CycleEnum.Core.VertexLoop

namespace CycleEnum

-- Distinct ids keep distinct compact ids, and every loop over the vertices ends.
def TemporalGraph.IdsKept (graph : TemporalGraph) : Prop :=
  ((∃ error, build_graph_view graph = .error error) ∨
    ∀ a ∈ graph.external_ids, ∀ b ∈ graph.external_ids,
      compact_id_at graph.external_ids a = compact_id_at graph.external_ids b → a = b) ∧
  ∀ view, build_graph_view graph = .ok view →
    ∀ (σ : Type) (body : σ → Nat → σ) (state : σ), Terminates view.vertex_count body state

def IdsKept (path : String) (text : List Char) : Prop :=
  ∀ graph, read_temporal_graph path (some text) = .ok graph → graph.IdsKept

-- The keys of `grouped_edges`, whose ids are narrowed to 32 bits.
def narrow_endpoints (rows : List RawTemporalEdge) : List (Nat × Nat) :=
  let external_ids := external_ids_of (kept_rows rows)
  ((kept_rows rows).map fun row =>
    (external_ids.idxOf row.source % 2 ^ 32, external_ids.idxOf row.target % 2 ^ 32)).dedup

section Ids

variable {path : String} {text : List Char} {graph : TemporalGraph} {rows : List RawTemporalEdge}

-- Only the number of edges is checked.
theorem build_graph_view_error_iff :
    (∃ error, build_graph_view graph = .error error) ↔ MAX_EDGE_ID < graph.edge_count := by
  unfold build_graph_view ensure_edge_ids_fit
  by_cases h : graph.edge_count > MAX_EDGE_ID
  · simp [h, bind, Except.bind]
  · simp [h, bind, Except.bind, pure, Except.pure]

theorem graph_ids_kept_iff : graph.IdsKept ↔
    graph.vertex_count < 2 ^ 32 ∨ MAX_EDGE_ID < graph.edge_count := by
  constructor
  · intro h
    rcases Nat.lt_or_ge MAX_EDGE_ID graph.edge_count with hmany | hfew
    · exact Or.inr hmany
    · left
      cases hbuild : build_graph_view graph with
      | error error =>
          have := build_graph_view_error_iff.mp ⟨error, hbuild⟩
          omega
      | ok view =>
          rw [← (build_graph_view_ok hbuild).2.1]
          exact (terminates_iff (fun state _ => state) ()).mp (h.2 view hbuild Unit _ ())
  · intro h
    rcases h with hids | hmany
    · refine ⟨Or.inr fun a ha b hb heq => ?_, fun view hbuild σ body state => ?_⟩
      · rw [compact_id_at_eq ha, compact_id_at_eq hb] at heq
        have ha' := List.idxOf_lt_length_of_mem ha
        have hb' := List.idxOf_lt_length_of_mem hb
        unfold TemporalGraph.vertex_count at hids
        have hindex := Except.ok.inj heq
        rw [Nat.mod_eq_of_lt (by omega), Nat.mod_eq_of_lt (by omega)] at hindex
        exact (List.idxOf_inj ha).mp hindex
      · rw [terminates_iff, (build_graph_view_ok hbuild).2.1]
        exact hids
    · obtain ⟨error, herror⟩ := build_graph_view_error_iff.mpr hmany
      refine ⟨Or.inl ⟨error, herror⟩, fun view hbuild => ?_⟩
      rw [herror] at hbuild
      cases hbuild

-- What the rows of a file say about the graph read from it.
theorem read_temporal_graph_counts
    (h : Holds path (is_matrix_market (get_lines text)) (data_lines text) rows) :
    ∃ graph, read_temporal_graph path (some text) = .ok graph ∧
      graph.vertex_count = (external_ids_of (kept_rows rows)).length ∧
      graph.edge_count = (narrow_endpoints rows).length := by
  refine ⟨_, read_temporal_graph_eq_ok_iff.mpr ⟨rows, h, rfl⟩, rfl, ?_⟩
  rw [TemporalGraph.edge_count, parsed_graph, group_edges, List.length_map, List.length_insertionSort,
    List.map_map, narrow_endpoints]
  rfl

-- The narrowing to 32 bits and the 32-bit loops do no harm exactly where the rows have fewer
-- than 2^32 ids, or where they join too many pairs of vertices for a view.
theorem compact_ids_kept_iff
    (h : Holds path (is_matrix_market (get_lines text)) (data_lines text) rows) :
    IdsKept path text ↔ (external_ids_of (kept_rows rows)).length < 2 ^ 32 ∨
      MAX_EDGE_ID < (narrow_endpoints rows).length := by
  obtain ⟨graph, hread, hvertices, hedges⟩ := read_temporal_graph_counts h
  rw [← hvertices, ← hedges, ← graph_ids_kept_iff]
  constructor
  · intro hkept
    exact hkept graph hread
  · intro hkept graph' hread'
    rw [hread] at hread'
    rwa [← Except.ok.inj hread']

theorem compact_ids_kept_iff_sample :
    IdsKept "g.txt" "7 3 5\n3,7".toList ↔
      (external_ids_of (kept_rows [⟨7, 3, 5⟩, ⟨3, 7, 0⟩])).length < 2 ^ 32 ∨
        MAX_EDGE_ID < (narrow_endpoints [⟨7, 3, 5⟩, ⟨3, 7, 0⟩]).length := by
  apply compact_ids_kept_iff
  have hlines : data_lines "7 3 5\n3,7".toList = ["7 3 5".toList, "3,7".toList] := by decide
  rw [hlines]
  exact .cons (by decide) (.cons (by decide) .nil)

end Ids

-- Files with many ids.
section Wide

-- A number with this many digits.
def decimal : Nat → Nat → List Char
  | 0, _ => []
  | width + 1, n => decimal width (n / 10) ++ [Char.ofNat (48 + n % 10)]

theorem digit_spec : ∀ digit < 10, is_digit (Char.ofNat (48 + digit)) = true ∧
    (Char.ofNat (48 + digit)).toNat - 48 = digit := by
  decide

theorem digit_ne {c d : Char} (hc : is_digit c = true) (hd : is_digit d = false) : c ≠ d := by
  intro heq
  rw [heq, hd] at hc
  cases hc

theorem decimal_digits (width n : Nat) : ∀ c ∈ decimal width n, is_digit c = true := by
  induction width generalizing n with
  | zero => simp [decimal]
  | succ width ih =>
      intro c hc
      rw [decimal] at hc
      rcases List.mem_append.mp hc with hc | hc
      · exact ih _ c hc
      · rw [List.mem_singleton.mp hc]
        exact (digit_spec _ (Nat.mod_lt _ (by decide))).1

theorem decimal_value (width n : Nat) :
    (decimal width n).foldl (fun (value : Int) c => 10 * value + (c.toNat - 48 : Nat)) 0 =
      (n % 10 ^ width : Nat) := by
  induction width generalizing n with
  | zero => simp [decimal, Nat.mod_one]
  | succ width ih =>
      rw [decimal, List.foldl_append, ih, List.foldl_cons, List.foldl_nil,
        (digit_spec _ (Nat.mod_lt n (by decide))).2, Nat.pow_succ, Nat.mul_comm (10 ^ width),
        Nat.mod_mul]
      push_cast
      omega

theorem decimal_ne_nil {width : Nat} (hwidth : 0 < width) (n : Nat) : decimal width n ≠ [] := by
  obtain ⟨width, rfl⟩ := Nat.exists_eq_succ_of_ne_zero (Nat.ne_of_gt hwidth)
  rw [decimal]
  simp

theorem number_value_decimal {width : Nat} (hwidth : 0 < width) (n : Nat) :
    number_value (decimal width n) = some ((n % 10 ^ width : Nat) : Int) := by
  have hnatural : natural (decimal width n) = some ((n % 10 ^ width : Nat) : Int) := by
    rw [natural, if_pos ⟨decimal_ne_nil hwidth n, List.all_eq_true.mpr (decimal_digits width n)⟩,
      decimal_value]
  cases hdigits : decimal width n with
  | nil => exact absurd hdigits (decimal_ne_nil hwidth n)
  | cons c digits =>
      have hc : is_digit c = true := decimal_digits width n c (by rw [hdigits]; simp)
      rw [number_value, if_neg (digit_ne hc rfl), if_neg (digit_ne hc rfl), ← hdigits, hnatural]

-- Reading a number back, behind a blank or none, up to something that is not a digit.
theorem next_number_decimal {width n : Nat} (hwidth : 0 < width) (hn : n < 10 ^ width)
    (hfits : n < 2 ^ 63) {rest : List Char} (hrest : ∀ d, rest.head? = some d → is_digit d = false) :
    next_number (decimal width n ++ rest) = (some (n : Int), rest) := by
  have hnumeric : Numeric (decimal width n) :=
    ⟨decimal_ne_nil hwidth n, [], decimal width n, rfl, decimal_digits width n, Or.inl rfl⟩
  have hspace : (decimal width n ++ rest).dropWhile is_space = decimal width n ++ rest := by
    cases hdigits : decimal width n with
    | nil => exact absurd hdigits (decimal_ne_nil hwidth n)
    | cons c digits =>
        have hc := not_space_of_digit (decimal_digits width n c (by rw [hdigits]; simp))
        rw [List.cons_append, List.dropWhile_cons_of_neg (by simp [hc])]
  have htake : take_number (decimal width n ++ rest) = (decimal width n, rest) := by
    cases rest with
    | nil => rw [List.append_nil, hnumeric.take_number]
    | cons d rest =>
        exact take_number_append hnumeric.take_number (hrest d rfl)
          fun hnil => absurd hnil (decimal_ne_nil hwidth n)
  have hvalue : (some (n : Int)).filter fits_int64 = some (n : Int) := by
    rw [Option.filter_some, if_pos]
    simp only [fits_int64, Bool.and_eq_true, decide_eq_true_eq]
    omega
  rw [next_number, hspace, htake]
  simp only [number_value_decimal hwidth, Nat.mod_eq_of_lt hn, hvalue]

def wide_line (index : Nat) : List Char :=
  decimal 10 (2 * index) ++ ' ' :: decimal 10 (2 * index + 1)

-- Every line joins two vertices of its own.
def wide_text (line_count : Nat) : List Char :=
  (List.range line_count).flatMap fun index => wide_line index ++ ['\n']

def wide_row (index : Nat) : RawTemporalEdge :=
  ⟨(2 * index : Nat), (2 * index + 1 : Nat), kDefaultMissingTimestamp⟩

theorem wide_line_chars {index : Nat} {c : Char} (hc : c ∈ wide_line index) :
    is_digit c = true ∨ c = ' ' := by
  rcases List.mem_append.mp hc with hc | hc
  · exact Or.inl (decimal_digits _ _ c hc)
  · rcases List.mem_cons.mp hc with hc | hc
    · exact Or.inr hc
    · exact Or.inl (decimal_digits _ _ c hc)

theorem wide_line_ne {index : Nat} {c d : Char} (hc : c ∈ wide_line index)
    (hd : is_digit d = false) (hspace : d ≠ ' ') : c ≠ d := by
  rcases wide_line_chars hc with hdigit | rfl
  · exact digit_ne hdigit hd
  · exact hspace.symm

theorem wide_line_head (index : Nat) :
    ∃ c more, wide_line index = c :: more ∧ is_digit c = true := by
  cases hdigits : decimal 10 (2 * index) with
  | nil => exact absurd hdigits (decimal_ne_nil (by decide) _)
  | cons c digits =>
      refine ⟨c, digits ++ ' ' :: decimal 10 (2 * index + 1), ?_, ?_⟩
      · rw [wide_line, hdigits, List.cons_append]
      · exact decimal_digits 10 (2 * index) c (by rw [hdigits]; simp)

theorem replace_commas_wide_line (index : Nat) : replace_commas (wide_line index) = wide_line index := by
  refine (List.map_congr_left fun c hc => ?_).trans (List.map_id _)
  rw [if_neg (wide_line_ne hc rfl (by decide)), id]

theorem read_row_wide_line (path : String) {index : Nat} (hindex : 2 * index + 1 < 10 ^ 10) :
    read_row path false 0 (wide_line index) = .ok (wide_row index) := by
  refine read_row_eq_ok_iff.mpr ⟨' ' :: decimal 10 (2 * index + 1), [], ?_, ?_, rfl, fun _ => rfl⟩
  · rw [replace_commas_wide_line, wide_line]
    exact next_number_decimal (by decide) (by omega) (by omega) fun d hd => by
      rw [List.head?_cons, Option.some.injEq] at hd
      rw [← hd]
      rfl
  · have hnext := @next_number_decimal 10 (2 * index + 1) (by decide) hindex (by omega) []
      fun d hd => by cases hd
    rw [List.append_nil] at hnext
    exact hnext

theorem get_lines_append (text : List Char) {line : List Char} (hline : '\n' ∉ line) :
    get_lines (line ++ '\n' :: text) = line :: get_lines text := by
  induction line with
  | nil => rw [List.nil_append, get_lines, if_pos rfl]
  | cons c line ih =>
      rw [List.mem_cons, not_or] at hline
      rw [List.cons_append, get_lines, if_neg (Ne.symm hline.1), ih hline.2]

theorem get_lines_wide (indices : List Nat) :
    get_lines (indices.flatMap fun index => wide_line index ++ ['\n']) = indices.map wide_line := by
  induction indices with
  | nil => rfl
  | cons index indices ih =>
      have hnewline : '\n' ∉ wide_line index := fun hmem =>
        wide_line_ne hmem rfl (by decide) rfl
      rw [List.flatMap_cons, List.append_assoc, List.singleton_append, get_lines_append _ hnewline,
        ih, List.map_cons]

theorem data_lines_wide (line_count : Nat) :
    is_matrix_market (get_lines (wide_text line_count)) = false ∧
      data_lines (wide_text line_count) = (List.range line_count).map wide_line := by
  have hlines : get_lines (wide_text line_count) = (List.range line_count).map wide_line :=
    get_lines_wide _
  have hbanner : is_matrix_market (get_lines (wide_text line_count)) = false := by
    rw [hlines, is_matrix_market]
    cases line_count with
    | zero => rfl
    | succ line_count =>
        obtain ⟨c, more, hline, hc⟩ := wide_line_head 0
        rw [List.range_succ_eq_map, List.map_cons, List.head?_cons, Option.any_some, hline]
        have hpercent : c ≠ '%' := digit_ne hc rfl
        simp [List.isPrefixOf, Ne.symm hpercent]
  refine ⟨hbanner, ?_⟩
  rw [data_lines, hbanner, hlines, if_neg Bool.false_ne_true, List.filter_eq_self]
  intro line hline
  obtain ⟨index, -, rfl⟩ := List.mem_map.mp hline
  obtain ⟨c, more, hhead, hc⟩ := wide_line_head index
  have hblank : c ≠ ' ' ∧ c ≠ '\t' ∧ c ≠ '\r' ∧ c ≠ '\n' :=
    ⟨digit_ne hc rfl, digit_ne hc rfl, digit_ne hc rfl, digit_ne hc rfl⟩
  have hcomment : c ≠ '#' ∧ c ≠ '%' := ⟨digit_ne hc rfl, digit_ne hc rfl⟩
  rw [hhead, is_ignored_line, List.dropWhile_cons_of_neg (by simp [hblank])]
  simp [hcomment]

theorem holds_wide (path : String) {line_count : Nat} (hcount : 2 * line_count ≤ 10 ^ 10) :
    Holds path (is_matrix_market (get_lines (wide_text line_count)))
      (data_lines (wide_text line_count)) ((List.range line_count).map wide_row) := by
  obtain ⟨hbanner, hlines⟩ := data_lines_wide line_count
  rw [hbanner, hlines, Holds, List.forall₂_map_left_iff, List.forall₂_map_right_iff,
    List.forall₂_same]
  intro index hindex
  have := List.mem_range.mp hindex
  exact read_row_wide_line path (by omega)

theorem kept_rows_wide (indices : List Nat) :
    kept_rows (indices.map wide_row) = indices.map wide_row := by
  refine List.filter_eq_self.mpr fun row hrow => ?_
  obtain ⟨index, -, rfl⟩ := List.mem_map.mp hrow
  have hne : (wide_row index).source ≠ (wide_row index).target := by
    change ((2 * index : Nat) : Int) ≠ ((2 * index + 1 : Nat) : Int)
    omega
  simpa using hne

theorem endpoints_wide (line_count : Nat) :
    ((List.range line_count).map wide_row).flatMap (fun row => [row.source, row.target]) =
      (List.range (2 * line_count)).map Nat.cast := by
  induction line_count with
  | zero => rfl
  | succ line_count ih =>
      rw [List.range_succ, List.map_append, List.flatMap_append, ih, Nat.mul_succ,
        List.range_succ, List.range_succ]
      simp [wide_row]

-- The file has two ids and one edge for each line.
theorem wide_counts (line_count : Nat) :
    (external_ids_of (kept_rows ((List.range line_count).map wide_row))).length = 2 * line_count ∧
      (narrow_endpoints ((List.range line_count).map wide_row)).length ≤ line_count := by
  constructor
  · have hnodup : ((List.range (2 * line_count)).map (Nat.cast : Nat → Int)).Nodup :=
      List.nodup_range.map fun a b h => Int.ofNat.inj h
    rw [kept_rows_wide, external_ids_of, List.length_insertionSort, endpoints_wide,
      hnodup.dedup, List.length_map, List.length_range]
  · rw [narrow_endpoints, kept_rows_wide]
    refine (List.dedup_sublist _).length_le.trans (Nat.le_of_eq ?_)
    rw [List.length_map, List.length_map, List.length_range]

theorem wide_ids_lost (path : String) {line_count : Nat} (hmany : 2 ^ 31 ≤ line_count)
    (hcount : 2 * line_count ≤ 10 ^ 10) (hedges : line_count ≤ MAX_EDGE_ID) :
    ¬IdsKept path (wide_text line_count) := by
  intro hkept
  obtain ⟨graph, hread, hvertices, hpairs⟩ := read_temporal_graph_counts (holds_wide path hcount)
  obtain ⟨hids, hle⟩ := wide_counts line_count
  have := graph_ids_kept_iff.mp (hkept graph hread)
  omega

-- A file with 2^32 + 2 ids, of which the first and the last two get the same compact ids.
theorem compact_ids_lost : ¬IdsKept "wide.txt" (wide_text (2 ^ 31 + 1)) :=
  wide_ids_lost "wide.txt" (by decide) (by decide) (by decide)

end Wide

end CycleEnum
