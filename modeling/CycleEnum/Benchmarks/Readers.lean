import CycleEnum.Benchmarks.Text
import CycleEnum.Core.HistogramCsv

namespace CycleEnum.Benchmarks

-- run_cycle_benchmarks.py: the total and the bins in their order.
def histogram_line (found : Option Int × Std.ExtTreeMap Nat Int) (raw_line : List Char) :
    Option Int × Std.ExtTreeMap Nat Int :=
  let line := strip raw_line
  if line = [] ∨ line.head? = some '#' ∨ ',' ∉ line then found
  else
    let left := strip (line.takeWhile (· ≠ ','))
    let right := strip ((line.dropWhile (· ≠ ',')).drop 1)
    if lower left = "total".toList then
      match int_of right with
      | some total => (some total, found.2)
      | none => found
    else if isdigit left then
      match int_of left, int_of right with
      | some length, some count => (found.1, found.2.insert length.toNat count)
      | _, _ => found
    else found

def bin_text (bin : Nat × Int) : List Char := bin.1.repr.toList ++ ':' :: bin.2.repr.toList

def parse_histogram (stdout : List Char) : Option Int × List Char :=
  let (total, bins) := (splitlines stdout).foldl histogram_line (none, ∅)
  (total, [';'].intercalate (bins.toList.map bin_text))

-- run_dataset_benchmarks.py: the rows with two parts, the total among them.
def dataset_row (raw_line : List Char) : Option (List Char × List Char) :=
  let line := strip raw_line
  if line = [] ∨ line.head? = some '#' then none
  else
    match (line.splitOn ',').map strip with
    | [first, second] => some (first, second)
    | _ => none

def parse_dataset_histogram (stdout : List Char) : List (List Char × List Char) :=
  (splitlines stdout).filterMap dataset_row

-- tune_cuda.py: the total that is read last.
def total_line (total : Int) (raw_line : List Char) : Int :=
  let line := strip raw_line
  if "total".toList.isPrefixOf (lower line) then
    match line.splitOn ',' with
    | [_, second] => (int_of (strip second)).getD total
    | _ => total
  else total

def parse_total_cycles (output : List Char) : Int := (splitlines output).foldl total_line 0

-- run_dynamic_benchmarks.py: the first match of `Total,\s*(\d+)`.
def search_total : List Char → Option (List Char)
  | [] => none
  | c :: text =>
      let digits := (((c :: text).drop 6).dropWhile is_blank).takeWhile is_digit
      if "Total,".toList.isPrefixOf (c :: text) ∧ digits ≠ [] then some digits
      else search_total text

open CycleHistogram (csv_line csv_row to_csv_ok)

section Rows

variable {first second : List Char}

-- What the readers see of a row.
theorem row_splits (hf : Word first) (hs : Word second) :
    strip (first ++ ',' :: ' ' :: second) = first ++ ',' :: ' ' :: second ∧
      (first ++ ',' :: ' ' :: second).splitOn ',' = [first, ' ' :: second] ∧
      (first ++ ',' :: ' ' :: second).takeWhile (· ≠ ',') = first ∧
      (first ++ ',' :: ' ' :: second).dropWhile (· ≠ ',') = ',' :: ' ' :: second := by
  have hcomma : ∀ c ∈ first, decide (c ≠ ',') = true := fun c hc => by simpa using (hf.2 c hc).2
  refine ⟨?_, ?_, ?_, ?_⟩
  · obtain ⟨c, middle, hc, hfront⟩ := hf.head
    obtain ⟨front, d, hd, hback⟩ := hs.last
    exact strip_eq hc hd ⟨by rw [hfront]; rfl, first ++ ',' :: ' ' :: front, by rw [hback]; simp⟩
  · rw [List.splitOn_append_cons_self_of_not_mem hf.not_mem_comma,
      List.splitOn_eq_singleton fun hmem => ?_]
    rcases List.mem_cons.mp hmem with hspace | hmem
    · cases hspace
    · exact hs.not_mem_comma hmem
  · rw [List.takeWhile_append_of_pos hcomma, List.takeWhile_cons_of_neg (by simp), List.append_nil]
  · rw [List.dropWhile_append_of_pos hcomma, List.dropWhile_cons_of_neg (by simp)]

theorem toLower_digit {c : Char} (h : is_digit c = true) : c.toLower = c := by
  simp only [is_digit, Bool.and_eq_true, decide_eq_true_eq, Char.toNat] at h
  unfold Char.toLower
  rw [dif_neg]
  rintro ⟨hlow, -⟩
  have hlow := UInt32.le_iff_toNat_le.mp hlow
  change 65 ≤ c.val.toNat at hlow
  omega

-- What begins with a number begins with no letter.
theorem lower_repr_append (n : Nat) (rest : List Char) :
    ∃ c tail, lower (n.repr.toList ++ rest) = c :: tail ∧ c ≠ 't' := by
  cases hdigits : n.repr.toList with
  | nil => exact absurd hdigits (repr_toList_ne_nil n)
  | cons c digits =>
      have hdigit : is_digit c = true := is_digit_of_mem_repr (n := n) (hdigits ▸ List.mem_cons_self)
      refine ⟨c.toLower, _, rfl, ?_⟩
      rw [toLower_digit hdigit]
      rintro rfl
      cases hdigit

theorem isdigit_repr (n : Nat) : isdigit n.repr.toList = true := by
  simp only [isdigit, Bool.and_eq_true, decide_eq_true_eq, List.all_eq_true]
  exact ⟨repr_toList_ne_nil n, fun c => is_digit_of_mem_repr⟩

end Rows

section Csv

-- The lines of the program's output.
def row_text (entry : Nat × Nat) : List Char := entry.1.repr.toList ++ ',' :: ' ' :: entry.2.repr.toList

def total_text (total : Nat) : List Char := "Total".toList ++ ',' :: ' ' :: total.repr.toList

def header_text : List Char := "# cycle_size, num_of_cycles".toList

def csv_lines (entries : List (Nat × Nat)) (total : Nat) : List (List Char) :=
  header_text :: (entries.map row_text ++ [total_text total])

variable {histogram : CycleHistogram} {text : List Char}

theorem csv_text (h : histogram.to_csv true = .ok text) :
    text = (csv_lines histogram.entries.toList histogram.size).flatMap (· ++ ['\n']) := by
  obtain ⟨-, rfl⟩ := to_csv_ok h
  have hrows : histogram.entries.toList.flatMap csv_row =
      (histogram.entries.toList.map row_text).flatMap (· ++ ['\n']) := by
    rw [List.flatMap_map]
    refine congrArg (List.flatMap · _) (funext fun entry => ?_)
    simp [csv_row, csv_line, row_text]
  rw [csv_lines, List.flatMap_cons, List.flatMap_append, ← hrows, List.flatMap_singleton, List.append_assoc]
  rfl

theorem csv_lines_plain (entries : List (Nat × Nat)) (total : Nat) :
    ∀ line ∈ csv_lines entries total, ∀ c ∈ line, is_line_end c = false := by
  have hwords : ∀ {first second : List Char}, Word first → Word second →
      ∀ c ∈ first ++ ',' :: ' ' :: second, is_line_end c = false := by
    intro first second hf hs c hc
    rcases List.mem_append.mp hc with hc | hc
    · exact is_line_end_of_blank (hf.2 c hc).1
    · rcases List.mem_cons.mp hc with rfl | hc
      · rfl
      · rcases List.mem_cons.mp hc with rfl | hc
        · rfl
        · exact is_line_end_of_blank (hs.2 c hc).1
  intro line hline
  simp only [csv_lines, List.mem_cons, List.mem_append, List.mem_map, List.not_mem_nil, or_false] at hline
  rcases hline with rfl | ⟨entry, -, rfl⟩ | rfl
  · have hheader : header_text.all (fun c => !is_line_end c) = true := by decide
    exact fun c hc => by simpa using List.all_eq_true.mp hheader c hc
  · exact hwords (word_repr _) (word_repr _)
  · exact hwords total_word (word_repr _)

theorem splitlines_csv (h : histogram.to_csv true = .ok text) :
    splitlines text = csv_lines histogram.entries.toList histogram.size := by
  rw [csv_text h, splitlines_lines (csv_lines_plain _ _)]

theorem row_text_ne (entry : Nat × Nat) : ¬(row_text entry = [] ∨ (row_text entry).head? = some '#') := by
  cases hdigits : entry.1.repr.toList with
  | nil => exact absurd hdigits (repr_toList_ne_nil entry.1)
  | cons c digits =>
      have hdigit : is_digit c = true :=
        is_digit_of_mem_repr (n := entry.1) (hdigits ▸ List.mem_cons_self)
      rw [row_text, hdigits]
      rintro (hnil | hhead)
      · cases hnil
      · obtain rfl := Option.some.inj hhead
        cases hdigit

theorem histogram_line_row (found : Option Int × Std.ExtTreeMap Nat Int) (entry : Nat × Nat) :
    histogram_line found (row_text entry) = (found.1, found.2.insert entry.1 (entry.2 : Int)) := by
  obtain ⟨hstrip, -, htake, hdrop⟩ := row_splits (word_repr entry.1) (word_repr entry.2)
  have hplain : ¬(row_text entry = [] ∨ (row_text entry).head? = some '#' ∨ ',' ∉ row_text entry) := by
    rintro (hnil | hhead | hcomma)
    · exact row_text_ne entry (Or.inl hnil)
    · exact row_text_ne entry (Or.inr hhead)
    · exact hcomma (by simp [row_text])
  obtain ⟨c, tail, hlower, hc⟩ := lower_repr_append entry.1 []
  rw [List.append_nil] at hlower
  have hletters : lower entry.1.repr.toList ≠ "total".toList := fun h => by
    rw [hlower] at h
    exact hc (List.cons.inj h).1
  change strip (row_text entry) = row_text entry at hstrip
  change (row_text entry).takeWhile _ = _ at htake
  change (row_text entry).dropWhile _ = _ at hdrop
  unfold histogram_line
  simp only [hstrip, htake, hdrop, List.drop_succ_cons, List.drop_zero, (word_repr entry.1).strip_eq,
    (word_repr entry.2).strip_blank]
  rw [if_neg hplain, if_neg hletters, if_pos (isdigit_repr entry.1), int_of_repr, int_of_repr]
  rfl

theorem histogram_line_total (found : Option Int × Std.ExtTreeMap Nat Int) (total : Nat) :
    histogram_line found (total_text total) = (some (total : Int), found.2) := by
  obtain ⟨hstrip, -, htake, hdrop⟩ :=
    row_splits total_word (word_repr total)
  have hplain : ¬(total_text total = [] ∨ (total_text total).head? = some '#' ∨
      ',' ∉ total_text total) := by
    rintro (hnil | hhead | hcomma)
    · cases hnil
    · cases hhead
    · exact hcomma (by simp [total_text])
  change strip (total_text total) = total_text total at hstrip
  change (total_text total).takeWhile _ = _ at htake
  change (total_text total).dropWhile _ = _ at hdrop
  unfold histogram_line
  simp only [hstrip, htake, hdrop, List.drop_succ_cons, List.drop_zero, (word_repr total).strip_blank]
  rw [if_neg hplain, if_pos (by decide), int_of_repr]

theorem dataset_row_pair {first second : List Char} (hf : Word first) (hs : Word second)
    (hplain : first.head? ≠ some '#') :
    dataset_row (first ++ ',' :: ' ' :: second) = some (first, second) := by
  obtain ⟨hstrip, hsplit, -, -⟩ := row_splits hf hs
  unfold dataset_row
  simp only [hstrip, hsplit, List.map_cons, List.map_nil, hf.strip_eq, hs.strip_blank]
  rw [if_neg]
  rintro (hnil | hhead)
  · simp at hnil
  · obtain ⟨c, middle, -, rfl⟩ := hf.head
    exact hplain hhead

theorem total_line_row (total : Int) (entry : Nat × Nat) : total_line total (row_text entry) = total := by
  obtain ⟨hstrip, -⟩ := row_splits (word_repr entry.1) (word_repr entry.2)
  obtain ⟨c, tail, hlower, hc⟩ := lower_repr_append entry.1 (',' :: ' ' :: entry.2.repr.toList)
  change strip (row_text entry) = row_text entry at hstrip
  change lower (row_text entry) = c :: tail at hlower
  unfold total_line
  simp only [hstrip, hlower]
  rw [if_neg]
  simp [List.isPrefixOf, Ne.symm hc]

theorem total_line_total (found : Int) (total : Nat) : total_line found (total_text total) = total := by
  obtain ⟨hstrip, hsplit, -⟩ :=
    row_splits total_word (word_repr total)
  change strip (total_text total) = total_text total at hstrip
  change (total_text total).splitOn ',' = _ at hsplit
  unfold total_line
  simp only [hstrip, hsplit, (word_repr total).strip_blank, int_of_repr, Option.getD_some]
  exact if_pos rfl

-- The search for the total starts at a `T`.
theorem search_total_skip {front rest : List Char} (h : 'T' ∉ front) :
    search_total (front ++ rest) = search_total rest := by
  induction front with
  | nil => rfl
  | cons c front ih =>
      have hc : c ≠ 'T' := fun hc => h (hc ▸ List.mem_cons_self)
      rw [List.cons_append, search_total, if_neg, ih fun hmem => h (List.mem_cons_of_mem _ hmem)]
      rintro ⟨hmatch, -⟩
      simp [List.isPrefixOf, Ne.symm hc] at hmatch

theorem search_total_line (total : Nat) :
    search_total (total_text total ++ ['\n']) = some total.repr.toList := by
  have hblank : ((' ' :: total.repr.toList) ++ ['\n']).dropWhile is_blank =
      total.repr.toList ++ ['\n'] := by
    obtain ⟨c, middle, hc, hfront⟩ := (word_repr total).head
    rw [List.cons_append, List.dropWhile_cons_of_pos (by decide), hfront, List.cons_append,
      List.dropWhile_cons_of_neg (by simp [hc])]
  have hdigits : (total.repr.toList ++ ['\n']).takeWhile is_digit = total.repr.toList := by
    rw [List.takeWhile_append_of_pos fun c hc => is_digit_of_mem_repr hc,
      List.takeWhile_cons_of_neg (by decide), List.append_nil]
  change (if "Total,".toList.isPrefixOf ("Total,".toList ++ ((' ' :: total.repr.toList) ++ ['\n'])) ∧
      ((((' ' :: total.repr.toList) ++ ['\n']).dropWhile is_blank).takeWhile is_digit) ≠ [] then
    some ((((' ' :: total.repr.toList) ++ ['\n']).dropWhile is_blank).takeWhile is_digit)
    else search_total _) = _
  rw [hblank, hdigits, if_pos ⟨rfl, repr_toList_ne_nil total⟩]

-- The bins that are read are the entries.
theorem bins_eq (histogram : CycleHistogram) :
    histogram.entries.toList.foldl (fun bins entry => bins.insert entry.1 (entry.2 : Int))
      (∅ : Std.ExtTreeMap Nat Int) =
        histogram.entries.map (fun (_ count : Nat) => (count : Int)) := by
  have hfold : histogram.entries.toList.foldl (fun bins entry => bins.insert entry.1 (entry.2 : Int))
      (∅ : Std.ExtTreeMap Nat Int) =
      Std.ExtTreeMap.ofList (histogram.entries.toList.map fun entry => (entry.1, (entry.2 : Int))) := by
    rw [Std.ExtTreeMap.ofList_eq_foldl, List.foldl_map]
  have hdistinct : (histogram.entries.toList.map fun entry => (entry.1, (entry.2 : Int))).Pairwise
      fun a b => ¬compare a.1 b.1 = .eq :=
    List.pairwise_map.mpr Std.ExtTreeMap.distinct_keys_toList
  rw [hfold]
  refine Std.ExtTreeMap.ext_getElem? fun k => ?_
  rw [Std.ExtTreeMap.getElem?_map]
  cases hk : histogram.entries[k]? with
  | none =>
      refine Std.ExtTreeMap.getElem?_ofList_of_contains_eq_false ?_
      rw [Bool.eq_false_iff]
      intro hmem
      obtain ⟨bin, hbin, rfl⟩ := List.mem_map.mp (List.contains_iff_mem.mp hmem)
      obtain ⟨entry, he, rfl⟩ := List.mem_map.mp hbin
      rw [Std.ExtTreeMap.mem_toList_iff_getElem?_eq_some.mp he] at hk
      cases hk
  | some count =>
      exact Std.ExtTreeMap.getElem?_ofList_of_mem Std.ReflCmp.compare_self hdistinct
        (List.mem_map.mpr ⟨(k, count), Std.ExtTreeMap.mem_toList_iff_getElem?_eq_some.mpr hk, rfl⟩)

theorem parse_histogram_csv (h : histogram.to_csv true = .ok text) : parse_histogram text =
    (some (histogram.size : Int), [';'].intercalate (histogram.entries.toList.map fun entry =>
      entry.1.repr.toList ++ ':' :: entry.2.repr.toList)) := by
  have hrows : ∀ (entries : List (Nat × Nat)) (found : Option Int × Std.ExtTreeMap Nat Int),
      (entries.map row_text).foldl histogram_line found =
        (found.1, entries.foldl (fun bins entry => bins.insert entry.1 (entry.2 : Int)) found.2) := by
    intro entries
    induction entries with
    | nil => exact fun _ => rfl
    | cons entry entries ih =>
        intro found
        rw [List.map_cons, List.foldl_cons, histogram_line_row, ih]
        rfl
  have hheader : ∀ found, histogram_line found header_text = found := fun _ => rfl
  rw [parse_histogram, splitlines_csv h, csv_lines, List.foldl_cons, hheader, List.foldl_append, hrows,
    bins_eq, List.foldl_cons, List.foldl_nil, histogram_line_total]
  dsimp only
  rw [Std.ExtTreeMap.toList_map, List.map_map]
  rfl

theorem parse_dataset_histogram_csv (h : histogram.to_csv true = .ok text) :
    parse_dataset_histogram text =
      histogram.entries.toList.map (fun entry => (entry.1.repr.toList, entry.2.repr.toList)) ++
        [("Total".toList, histogram.size.repr.toList)] := by
  have hrow : ∀ entry : Nat × Nat,
      dataset_row (row_text entry) = some (entry.1.repr.toList, entry.2.repr.toList) := fun entry =>
    dataset_row_pair (word_repr _) (word_repr _) fun hhead => row_text_ne entry (Or.inr (by
      rw [row_text, List.head?_append, hhead]
      rfl))
  have htotal : dataset_row (total_text histogram.size) =
      some ("Total".toList, histogram.size.repr.toList) :=
    dataset_row_pair total_word (word_repr _) (by decide)
  have hheader : dataset_row header_text = none := rfl
  rw [parse_dataset_histogram, splitlines_csv h, csv_lines, List.filterMap_cons_none hheader,
    List.filterMap_append, List.filterMap_map, List.filterMap_cons_some htotal, List.filterMap_nil]
  congr 1
  rw [← List.filterMap_eq_map]
  exact congrArg (List.filterMap · _) (funext hrow)

theorem parse_total_cycles_csv (h : histogram.to_csv true = .ok text) :
    parse_total_cycles text = histogram.size := by
  have hrows : ∀ (entries : List (Nat × Nat)) (total : Int),
      (entries.map row_text).foldl total_line total = total := by
    intro entries
    induction entries with
    | nil => exact fun _ => rfl
    | cons entry entries ih =>
        intro total
        rw [List.map_cons, List.foldl_cons, total_line_row, ih]
  have hheader : total_line 0 header_text = 0 := rfl
  rw [parse_total_cycles, splitlines_csv h, csv_lines, List.foldl_cons, hheader, List.foldl_append,
    hrows, List.foldl_cons, List.foldl_nil, total_line_total]

theorem search_total_csv (h : histogram.to_csv true = .ok text) :
    search_total text = some histogram.size.repr.toList := by
  have hdigits : ∀ n : Nat, 'T' ∉ Nat.toDigits 10 n := fun n hmem =>
    absurd (is_digit_of_mem_toDigits hmem) (by decide)
  have hfront : 'T' ∉ (header_text ++ ['\n']) ++
      (histogram.entries.toList.map row_text).flatMap (· ++ ['\n']) := by
    intro hmem
    rcases List.mem_append.mp hmem with hmem | hmem
    · exact absurd hmem (by decide)
    · obtain ⟨line, hline, hmem⟩ := List.mem_flatMap.mp hmem
      obtain ⟨entry, -, rfl⟩ := List.mem_map.mp hline
      simp [row_text, hdigits] at hmem
  rw [csv_text h, csv_lines, List.flatMap_cons, List.flatMap_append, ← List.append_assoc,
    search_total_skip hfront, List.flatMap_singleton, search_total_line]

-- What the program prints of a histogram tells all of it, and the readers of the benchmark
-- scripts agree on what they find in it.
theorem to_csv_readers (h : histogram.to_csv true = .ok text) :
    parse_histogram text = (some (histogram.size : Int), [';'].intercalate
      (histogram.entries.toList.map fun entry => entry.1.repr.toList ++ ':' :: entry.2.repr.toList)) ∧
    parse_dataset_histogram text =
      histogram.entries.toList.map (fun entry => (entry.1.repr.toList, entry.2.repr.toList)) ++
        [("Total".toList, histogram.size.repr.toList)] ∧
    parse_total_cycles text = histogram.size ∧
    search_total text = some histogram.size.repr.toList ∧
    ∀ other : CycleHistogram, other.to_csv true = .ok text → other = histogram := by
  refine ⟨parse_histogram_csv h, parse_dataset_histogram_csv h, parse_total_cycles_csv h,
    search_total_csv h, fun other hother => ?_⟩
  have hrows := (parse_dataset_histogram_csv hother).symm.trans (parse_dataset_histogram_csv h)
  have hentries := (List.append_inj' hrows rfl).1
  have hinjective : Function.Injective fun entry : Nat × Nat =>
      (entry.1.repr.toList, entry.2.repr.toList) := by
    intro a b heq
    obtain ⟨hfirst, hsecond⟩ := Prod.mk.inj heq
    exact Prod.ext (repr_injective (String.toList_inj.mp hfirst))
      (repr_injective (String.toList_inj.mp hsecond))
  exact CycleHistogram.ext (Std.ExtTreeMap.toList_inj.mp (List.map_injective_iff.mpr hinjective hentries))

theorem to_csv_readers_sample :
    parse_histogram "# cycle_size, num_of_cycles\n2, 11\n3, 2\nTotal, 13\n".toList =
      (some 13, "2:11;3:2".toList) :=
  (@to_csv_readers ⟨((∅ : Std.ExtTreeMap Nat Nat).insert 3 2).insert 2 11⟩ _ rfl).1

end Csv

end CycleEnum.Benchmarks
