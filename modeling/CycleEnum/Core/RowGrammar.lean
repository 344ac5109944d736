import CycleEnum.Core.DataRows
import Mathlib.Data.List.DropRight

namespace CycleEnum

-- The lines of a plain file that hold rows.
def row_lines (text : List Char) : List (List Char) :=
  (get_lines text).filter fun line => !is_ignored_line line

-- Two or three fields, each in full an integer of 64 bits.
def RowGrammar (line : List Char) : Prop :=
  ((fields (replace_commas line)).length = 2 ∨ (fields (replace_commas line)).length = 3) ∧
    ∀ field ∈ fields (replace_commas line), Literal field

-- Two integers and perhaps a third number, which need not have a digit nor fit 64
-- bits. A sign behind a digit begins a new number without a blank.
def LooseGrammar (line : List Char) : Prop :=
  ∃ source target, Literal source ∧ Literal target ∧
    (pieces (replace_commas line) = [source, target] ∨
      ∃ third, Numeric third ∧ pieces (replace_commas line) = [source, target, third])

-- A line outside the grammar that a reader by longest numeric parts lets through.
def Slips (line : List Char) : Prop := LooseGrammar line ∧ ¬ RowGrammar line

-- The claim of the header about one file: rows of the grammar are read, all else
-- is a parse error.
def ReadsGrammar (path : String) (text : List Char) : Prop :=
  ((∃ graph, read_temporal_graph path (some text) = .ok graph) ↔
      ∀ line ∈ row_lines text, RowGrammar line) ∧
    ∀ error, read_temporal_graph path (some text) = .error error →
      ∃ what, error = .graph_parse_error what

section Pieces

variable {text rest taken : List Char}

theorem isChain_of_tail {R : Char → Char → Prop} {word : List Char}
    (h : ∀ c, ∀ d ∈ word.tail, R c d) : word.IsChain R := by
  induction word with
  | nil => exact List.isChain_nil
  | cons c word ih =>
      cases word with
      | nil => exact List.isChain_singleton c
      | cons d word =>
          refine List.isChain_cons_cons.mpr ⟨h c d (by simp), ih fun x y hy => h x y ?_⟩
          exact List.mem_cons_of_mem _ hy

theorem not_sign_of_digit {c : Char} (h : is_digit c = true) : is_sign c = false := by
  cases hc : is_sign c with
  | true => simp [not_digit_of_sign hc] at h
  | false => rfl

-- The characters of a number stay together.
theorem Numeric.joined {word : List Char} (h : Numeric word) :
    (∀ c ∈ word, is_space c = false) ∧
      word.IsChain fun c d => (!(is_digit c && is_sign d)) = true := by
  obtain ⟨-, sign, digits, rfl, hdigits, hs⟩ := h
  have hspace : ∀ c ∈ digits, is_space c = false := fun c hc =>
    not_space_of_digit (hdigits c hc)
  rcases hs with rfl | ⟨c, hc, rfl⟩
  · refine ⟨by simpa using hspace, isChain_of_tail fun c d hd => ?_⟩
    simp [not_sign_of_digit (hdigits d (List.mem_of_mem_tail hd))]
  · refine ⟨fun d hd => ?_, isChain_of_tail fun c d hd => ?_⟩
    · rcases List.mem_cons.mp hd with rfl | hd
      · exact not_space_of_sign hc
      · exact hspace d hd
    · simp [not_sign_of_digit (hdigits d hd)]

-- What an extraction does to the pieces of the text: there is none left, it takes
-- the first one, or it stops inside the first one.
inductive Front (text : List Char) : Option Int → List Char → Prop where
  | blank : pieces text = [] → Front text none []
  | clean (piece rest : List Char) : Numeric piece → pieces text = piece :: pieces rest →
      Front text ((number_value piece).filter fits_int64) rest
  | stuck (value : Option Int) (piece : List Char) (others : List (List Char))
      (rest : List Char) : pieces text = piece :: others → ¬ Numeric piece →
      rest.dropWhile is_space ≠ [] → (value ≠ none → next_number rest = (none, rest)) →
      Front text value rest

theorem stuck_of_head {d : Char} (h : take_number text = (taken, d :: rest))
    (hspace : is_space d = false)
    (hjoin : taken = [] ∨ ∃ c, taken.getLast? = some c ∧ (is_digit c && is_sign d) = false) :
    Front text ((number_value taken).filter fits_int64) (d :: rest) := by
  obtain ⟨hsplit, hdigit, hsign, hshape⟩ := take_number_spec h
  have hd : is_digit d = false := hdigit d rfl
  have hchars : ∀ c ∈ taken, is_space c = false := by
    by_cases hne : taken = []
    · simp [hne]
    · exact (numeric_of_taken h hne).joined.1
  have hchain : (taken ++ [d]).IsChain fun c d => (!(is_digit c && is_sign d)) = true := by
    rcases hjoin with rfl | ⟨c, hlast, hcd⟩
    · exact List.isChain_singleton d
    · have hne : taken ≠ [] := by
        rintro rfl
        simp at hlast
      refine List.isChain_append.mpr ⟨(numeric_of_taken h hne).joined.2, List.isChain_singleton d, ?_⟩
      intro x hx y hy
      obtain rfl : c = x := by
        rw [hlast] at hx
        simpa using hx
      obtain rfl : d = y := by simpa using hy
      simp [hcd]
  obtain ⟨more, others, hpieces⟩ := chunks_longer rest hchars hchain hspace
  refine .stuck _ (taken ++ d :: more) others _ (by rw [pieces, hsplit, hpieces]) ?_ ?_ ?_
  · exact not_numeric_append h hd fun hnil => hsign hnil d rfl
  · rw [List.dropWhile_cons_of_neg (by simp [hspace])]
    simp
  · intro hvalue
    obtain ⟨value, hv⟩ := Option.ne_none_iff_exists'.mp hvalue
    obtain ⟨c, hlast, hc⟩ := (number_value_some (Option.filter_eq_some_iff.mp hv).1).2
    have hnot : is_sign d = false := by
      rcases hjoin with rfl | ⟨c', hlast', hcd⟩
      · simp at hlast
      · rw [hlast] at hlast'
        obtain rfl : c = c' := by simpa using hlast'
        simpa [hc] using hcd
    simp [next_number, List.dropWhile_cons_of_neg, hspace, take_number, hnot, hd, number_value]

theorem next_number_front (text : List Char) :
    Front text (next_number text).1 (next_number text).2 := by
  have hskip : ∀ value rest, Front (text.dropWhile is_space) value rest →
      Front text value rest := by
    intro value rest h
    have hpieces : pieces (text.dropWhile is_space) = pieces text := chunks_dropWhile
    cases h with
    | blank hp => exact .blank (hpieces ▸ hp)
    | clean piece _ hn hp => exact .clean piece rest hn (hpieces ▸ hp)
    | stuck _ piece others _ hp hn hr hv => exact .stuck value piece others rest (hpieces ▸ hp) hn hr hv
  apply hskip
  rw [next_number]
  generalize htext : text.dropWhile is_space = front
  have hfront : front.dropWhile is_space = front := by
    rw [← htext]
    exact List.dropWhile_idempotent _ _
  obtain ⟨taken, rest, htake⟩ : ∃ taken rest, take_number front = (taken, rest) := ⟨_, _, rfl⟩
  rw [htake]
  obtain ⟨hsplit, hdigit, hsign, hshape⟩ := take_number_spec htake
  cases rest with
  | nil =>
      rw [List.append_nil] at hsplit
      by_cases hne : taken = []
      · subst hne
        exact .blank (by rw [hsplit]; rfl)
      · have hn := numeric_of_taken htake hne
        refine .clean taken [] hn ?_
        have hword := chunks_word [] hne hn.joined.1 hn.joined.2 (by simp)
        rw [List.append_nil, ← hsplit] at hword
        rw [hsplit]
        rwa [← hsplit]
  | cons d rest =>
      by_cases hstuck : is_space d = false ∧
          (taken = [] ∨ ∃ c, taken.getLast? = some c ∧ (is_digit c && is_sign d) = false)
      · exact stuck_of_head htake hstuck.1 hstuck.2
      · have hne : taken ≠ [] := by
          rintro rfl
          rw [List.nil_append] at hsplit
          have hspace : is_space d = false := by
            have hhead := List.head?_dropWhile_not is_space front
            rw [hfront, hsplit] at hhead
            simpa using hhead
          exact hstuck ⟨hspace, Or.inl rfl⟩
        have hn := numeric_of_taken htake hne
        refine .clean taken (d :: rest) hn ?_
        rw [pieces, hsplit]
        refine chunks_word (d :: rest) hne hn.joined.1 hn.joined.2 fun c x hc hx => ?_
        obtain rfl : d = x := by simpa using hx
        by_contra hcon
        rw [not_or] at hcon
        refine hstuck ⟨by simpa using hcon.1, Or.inr ⟨c, hc, ?_⟩⟩
        simpa using hcon.2

end Pieces

section Rows

variable {path : String} {line_number : Nat} {line : List Char}

theorem literal_of_filter {piece : List Char} {value : Int}
    (h : (number_value piece).filter fits_int64 = some value) : Literal piece := by
  obtain ⟨hv, hfit⟩ := Option.filter_eq_some_iff.mp h
  exact ⟨value, hv, hfit⟩

theorem filter_ne_none {piece : List Char} (h : Literal piece) :
    (number_value piece).filter fits_int64 ≠ none := by
  obtain ⟨value, hv, hfit⟩ := h
  simp [hv, Option.filter, hfit]

-- The first number of a text, where its text begins with a literal.
theorem Front.literal {text piece rest : List Char} {value : Option Int}
    {others : List (List Char)} (h : Front text value rest) (hp : pieces text = piece :: others)
    (hl : Literal piece) : (∃ v, value = some v) ∧ pieces rest = others := by
  cases h with
  | blank hb => rw [hp] at hb; simp at hb
  | clean first _ hn hc =>
      rw [hp] at hc
      obtain ⟨rfl, rfl⟩ := List.cons.inj hc
      exact ⟨Option.ne_none_iff_exists'.mp (filter_ne_none hl), rfl⟩
  | stuck _ first others' _ hs hn =>
      rw [hp] at hs
      obtain ⟨rfl, -⟩ := List.cons.inj hs
      exact absurd (literal_numeric hl) hn

-- Where a number is read, its piece is a literal unless the next reading fails at
-- once and leaves something over.
theorem Front.some {text rest : List Char} {value : Int} (h : Front text (some value) rest) :
    (∃ piece, Literal piece ∧ pieces text = piece :: pieces rest) ∨
      next_number rest = (none, rest) ∧ rest.dropWhile is_space ≠ [] := by
  generalize hv : Option.some value = found at h
  cases h with
  | blank => simp at hv
  | clean piece _ hn hp => exact Or.inl ⟨piece, literal_of_filter hv.symm, hp⟩
  | stuck _ piece others _ hs hn hrest hnext => exact Or.inr ⟨hnext (by simp [← hv]), hrest⟩

-- What follows the first two numbers is fine iff it is blank or one number.
theorem Front.last {text rest : List Char} {value : Option Int} (h : Front text value rest) :
    rest.dropWhile is_space = [] ↔
      pieces text = [] ∨ ∃ third, Numeric third ∧ pieces text = [third] := by
  have hnil : ∀ text : List Char, pieces text = [] ↔ text.dropWhile is_space = [] :=
    fun _ => chunks_eq_nil_iff
  cases h with
  | blank hb => simp [hb]
  | clean piece _ hn hp =>
      rw [hp, ← hnil rest]
      constructor
      · intro hrest
        exact Or.inr ⟨piece, hn, by rw [hrest]⟩
      · rintro (hcon | ⟨third, -, hthird⟩)
        · simp at hcon
        · exact (List.cons.inj hthird).2
  | stuck _ piece others _ hs hn hrest =>
      rw [hs]
      constructor
      · exact fun hcon => absurd hcon hrest
      · rintro (hcon | ⟨third, hthird, heq⟩)
        · simp at hcon
        · obtain ⟨rfl, -⟩ := List.cons.inj heq
          exact absurd hthird hn

-- The reader accepts exactly the loose rows.
theorem read_row_ok_iff :
    (∃ raw_edge, read_row path false line_number line = .ok raw_edge) ↔ LooseGrammar line := by
  constructor
  · rintro ⟨raw_edge, h⟩
    obtain ⟨first, second, hs, ht, -, hthird⟩ := read_row_eq_ok_iff.mp h
    have hthird := hthird rfl
    have hfront := next_number_front (replace_commas line)
    have hfront' := next_number_front first
    rw [hs] at hfront
    rw [ht] at hfront'
    rcases hfront.some with ⟨source, hsource, hp⟩ | ⟨hnext, -⟩
    · rcases hfront'.some with ⟨target, htarget, hp'⟩ | ⟨hnext, hrest⟩
      · refine ⟨source, target, hsource, htarget, ?_⟩
        rw [hp, hp']
        rcases (next_number_front second).last.mp hthird with hnil | ⟨third, hn, hone⟩
        · exact Or.inl (by rw [hnil])
        · exact Or.inr ⟨third, hn, by rw [hone]⟩
      · rw [hnext] at hthird
        exact absurd hthird hrest
    · rw [hnext] at ht
      simp at ht
  · rintro ⟨source, target, hsource, htarget, hp⟩
    obtain ⟨others, hothers, hlast⟩ : ∃ others, pieces (replace_commas line) =
        source :: target :: others ∧ (others = [] ∨ ∃ third, Numeric third ∧ others = [third]) := by
      rcases hp with hp | ⟨third, hn, hp⟩
      · exact ⟨[], hp, Or.inl rfl⟩
      · exact ⟨[third], hp, Or.inr ⟨third, hn, rfl⟩⟩
    obtain ⟨⟨s, hs⟩, hfirst⟩ := (next_number_front (replace_commas line)).literal hothers hsource
    obtain ⟨⟨t, ht⟩, hsecond⟩ := (next_number_front _).literal hfirst htarget
    rw [← hsecond] at hlast
    have hthird := (next_number_front _).last.mpr hlast
    exact ⟨⟨s, t, _⟩, read_row_eq_ok_iff.mpr ⟨(next_number (replace_commas line)).2,
      (next_number (next_number (replace_commas line)).2).2, Prod.ext hs rfl, Prod.ext ht rfl,
      rfl, fun _ => hthird⟩⟩

-- Fields of joined characters are not cut further.
theorem chunks_of_fields {joined : Char → Char → Bool} {text : List Char}
    (h : ∀ field ∈ fields text, field.IsChain fun c d => joined c d = true) :
    chunks joined text = fields text := by
  induction text with
  | nil => rfl
  | cons c text ih =>
      cases hc : is_space c with
      | true =>
          rw [fields, chunks_space hc] at h ⊢
          rw [chunks_space hc]
          exact ih h
      | false =>
          by_cases hd : ∃ d more, text = d :: more ∧ is_space d = false
          · obtain ⟨d, more, rfl, hd⟩ := hd
            obtain ⟨word, others, hfields⟩ : ∃ word others,
                fields (d :: more) = (d :: word) :: others := chunks_head hd
            have hcons : fields (c :: d :: more) = (c :: d :: word) :: others := by
              rw [fields, chunks_join hc hd rfl]
              rw [fields] at hfields
              rw [hfields]
              rfl
            have hcd := List.isChain_cons_cons.mp (h (c :: d :: word) (by simp [hcons]))
            rw [chunks_join hc hd hcd.1, ih fun field hf => ?_, hcons, hfields]
            · rfl
            · rw [hfields] at hf
              rw [hcons] at h
              rcases List.mem_cons.mp hf with rfl | hf
              · exact hcd.2
              · exact h field (by simp [hf])
          · have hbreak : ∀ joined : Char → Char → Bool, ∀ d, text.head? = some d →
                is_space d = true ∨ joined c d = false := by
              intro joined d hhead
              refine Or.inl ?_
              by_contra hspace
              obtain ⟨more, rfl⟩ := List.head?_eq_some_iff.mp hhead
              exact hd ⟨d, more, rfl, by simpa using hspace⟩
            rw [fields, chunks_break hc (hbreak _)] at h ⊢
            rw [chunks_break hc (hbreak _), ih fun field hf => h field (List.mem_cons_of_mem _ hf)]
            rfl

theorem loose_of_row_grammar (h : RowGrammar line) : LooseGrammar line := by
  obtain ⟨hlen, hlit⟩ := h
  have hpieces : pieces (replace_commas line) = fields (replace_commas line) :=
    chunks_of_fields fun field hf => (literal_numeric (hlit field hf)).joined.2
  rcases hlen with hlen | hlen
  · obtain ⟨a, b, heq⟩ := List.length_eq_two.mp hlen
    rw [heq] at hlit
    exact ⟨a, b, hlit a (by simp), hlit b (by simp), Or.inl (by rw [hpieces, heq])⟩
  · obtain ⟨a, b, c, heq⟩ := List.length_eq_three.mp hlen
    rw [heq] at hlit
    exact ⟨a, b, hlit a (by simp), hlit b (by simp),
      Or.inr ⟨c, literal_numeric (hlit c (by simp)), by rw [hpieces, heq]⟩⟩

end Rows

section Files

variable {path : String} {text : List Char}

theorem data_lines_plain (h : is_matrix_market (get_lines text) = false) :
    data_lines text = row_lines text := by
  simp [data_lines, row_lines, h]

theorem exists_holds_iff (path : String) {lines : List (List Char)} :
    (∃ found, Holds path false lines found) ↔ ∀ line ∈ lines, LooseGrammar line := by
  constructor
  · rintro ⟨found, hfound⟩
    induction hfound with
    | nil => simp
    | cons hrow hfound ih =>
        intro line hline
        rcases List.mem_cons.mp hline with rfl | hline
        · exact read_row_ok_iff.mp ⟨_, hrow⟩
        · exact ih line hline
  · intro h
    induction lines with
    | nil => exact ⟨[], .nil⟩
    | cons line lines ih =>
        obtain ⟨found, hfound⟩ := ih fun other ho => h other (List.mem_cons_of_mem _ ho)
        obtain ⟨row, hrow⟩ := read_row_ok_iff.mpr (h line (by simp))
        exact ⟨row :: found, .cons hrow hfound⟩

theorem read_temporal_graph_ok_iff (h : is_matrix_market (get_lines text) = false) :
    (∃ graph, read_temporal_graph path (some text) = .ok graph) ↔
      ∀ line ∈ row_lines text, LooseGrammar line := by
  rw [← exists_holds_iff path, ← data_lines_plain h, ← h]
  constructor
  · rintro ⟨graph, hgraph⟩
    obtain ⟨found, hfound, -⟩ := read_temporal_graph_eq_ok_iff.mp hgraph
    exact ⟨found, hfound⟩
  · rintro ⟨found, hfound⟩
    exact ⟨_, read_temporal_graph_eq_ok_iff.mpr ⟨found, hfound, rfl⟩⟩

-- The reader meets the grammar on exactly the files without a line that slips
-- through, or with a line that nothing lets through.
theorem read_temporal_graph_grammar (path : String)
    (h : is_matrix_market (get_lines text) = false) :
    ReadsGrammar path text ↔
      (∃ line ∈ row_lines text, ¬ LooseGrammar line) ∨ ∀ line ∈ row_lines text, ¬ Slips line := by
  rw [ReadsGrammar, and_iff_left fun _ => read_temporal_graph_error, read_temporal_graph_ok_iff h]
  constructor
  · intro hreads
    by_cases hloose : ∀ line ∈ row_lines text, LooseGrammar line
    · exact Or.inr fun line hline hslips => hslips.2 (hreads.mp hloose line hline)
    · exact Or.inl (by simpa using hloose)
  · rintro (⟨line, hline, hnot⟩ | hslips)
    · exact ⟨fun hloose => absurd (hloose line hline) hnot,
        fun hgrammar => absurd (loose_of_row_grammar (hgrammar line hline)) hnot⟩
    · refine ⟨fun hloose line hline => ?_, fun hgrammar line hline =>
        loose_of_row_grammar (hgrammar line hline)⟩
      by_contra hnot
      exact hslips line hline ⟨hloose line hline, hnot⟩

theorem read_temporal_graph_grammar_sample :
    ReadsGrammar "g.txt" "1 2 3\n4,5\n".toList ↔
      (∃ line ∈ row_lines "1 2 3\n4,5\n".toList, ¬ LooseGrammar line) ∨
        ∀ line ∈ row_lines "1 2 3\n4,5\n".toList, ¬ Slips line :=
  read_temporal_graph_grammar "g.txt" (by decide)

-- A third field that is a sign alone is read as a missing timestamp.
theorem lone_sign_is_read :
    is_matrix_market (get_lines "1 2 +".toList) = false ∧ ¬ ReadsGrammar "g.txt" "1 2 +".toList := by
  refine ⟨by decide, fun h => ?_⟩
  have hread : read_temporal_graph "g.txt" (some "1 2 +".toList) =
      .ok ⟨[1, 2], [⟨0, 1, [0]⟩]⟩ := by decide
  have hgrammar := h.1.mp ⟨_, hread⟩ "1 2 +".toList (by decide)
  obtain ⟨value, hvalue, -⟩ := hgrammar.2 ['+'] (by decide)
  exact absurd hvalue (by simp [number_value, natural])

end Files

end CycleEnum
