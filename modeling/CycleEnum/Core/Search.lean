import CycleEnum.Core.Histogram

namespace CycleEnum

-- A step of a search: it adds to the histogram and can throw.
abbrev Search := StateT CycleHistogram (Except Error)

namespace Search

variable {α β γ : Type}

def increment (length count : Nat) : Search Unit := fun histogram =>
  (histogram.increment length count).map ((), ·)

-- A result that is missing because a recursion bound ran out.
def finished (result : Option α) : Search α := fun histogram =>
  match result with
  | none => .error .unfinished
  | some a => .ok (a, histogram)

def ofExcept (result : Except Error α) : Search α := fun histogram =>
  result.map (·, histogram)

-- A finished search as the value a counter returns.
def histogram (search : Search Unit) : Except Error CycleHistogram :=
  (search ∅).map (·.2)

-- A step that returns `a` and adds `events` to whatever histogram it is given.
-- It throws exactly where adding them does.
def Emits (search : Search α) (a : α) (events : List (Nat × Nat)) : Prop :=
  ∀ histogram, search histogram = (histogram.record events).map (a, ·)

-- A step that always ends in an overflow: of a count, unless a window may overflow
-- as well.
def Overflows (window : Prop) (search : Search α) : Prop :=
  ∀ histogram, ∃ what, (CountOverflow what ∨ window) ∧
    search histogram = .error (.overflow_error what)

theorem emits_pure (a : α) : Emits (pure a) a [] := fun _ => rfl

theorem emits_finished (a : α) : Emits (finished (some a)) a [] := fun _ => rfl

theorem emits_ofExcept {result : Except Error α} {a : α} (h : result = .ok a) :
    Emits (ofExcept result) a [] := fun histogram => by
  subst h
  rfl

theorem emits_increment (length count : Nat) :
    Emits (increment length count) () [(length, count)] := fun histogram => by
  rw [CycleHistogram.record_cons]
  cases h : histogram.increment length count with
  | error e => simp [increment, h, Except.map, Except.bind]
  | ok histogram' => simp [increment, h, Except.map, Except.bind]

theorem Emits.bind {search : Search α} {next : α → Search β} {a : α} {b : β}
    {events more : List (Nat × Nat)} (h : Emits search a events) (h' : Emits (next a) b more) :
    Emits (search >>= next) b (events ++ more) := fun histogram => by
  change (search histogram).bind (fun p => next p.1 p.2) = _
  rw [h histogram, CycleHistogram.record_append]
  cases hr : histogram.record events with
  | error e => rfl
  | ok middle => exact h' middle

theorem Emits.then {search : Search α} {next : α → Search β} {a : α} {b : β}
    {events : List (Nat × Nat)} (h : Emits search a events) (h' : Emits (next a) b []) :
    Emits (search >>= next) b events := by
  simpa using h.bind h'

theorem Emits.silent {search : Search α} {next : α → Search β} {a : α} {b : β}
    {events : List (Nat × Nat)} (h : Emits search a []) (h' : Emits (next a) b events) :
    Emits (search >>= next) b events :=
  h.bind h'

theorem Emits.forM {xs : List β} {visit : β → Search Unit} {events : β → List (Nat × Nat)}
    (h : ∀ x ∈ xs, Emits (visit x) () (events x)) :
    Emits (xs.forM visit) () (xs.flatMap events) := by
  induction xs with
  | nil => exact emits_pure ()
  | cons x xs ih =>
      rw [List.flatMap_cons]
      exact (h x (by simp)).bind (ih fun y hy => h y (List.mem_cons_of_mem _ hy))

-- A loop over `row` that changes nothing but the histogram.
theorem Emits.foldlM_const {row : List β} {visit : α → β → Search α} {a : α}
    {events : β → List (Nat × Nat)} (h : ∀ x ∈ row, Emits (visit a x) a (events x)) :
    Emits (row.foldlM visit a) a (row.flatMap events) := by
  induction row with
  | nil => exact emits_pure a
  | cons x row ih =>
      rw [List.flatMap_cons, List.foldlM_cons]
      exact (h x (by simp)).bind (ih fun y hy => h y (List.mem_cons_of_mem _ hy))

-- A loop whose rounds append to a list and change nothing else but the histogram.
theorem Emits.foldlM_append (build : List γ → α) {row : List β} {visit : α → β → Search α}
    {found : β → List γ} {events : β → List (Nat × Nat)}
    (h : ∀ x ∈ row, ∀ list, Emits (visit (build list) x) (build (list ++ found x)) (events x))
    (list : List γ) :
    Emits (row.foldlM visit (build list)) (build (list ++ row.flatMap found))
      (row.flatMap events) := by
  induction row generalizing list with
  | nil =>
      rw [List.flatMap_nil, List.append_nil]
      exact emits_pure _
  | cons x row ih =>
      rw [List.flatMap_cons, List.flatMap_cons, List.foldlM_cons, ← List.append_assoc]
      exact (h x (by simp) list).bind (ih (fun y hy => h y (List.mem_cons_of_mem _ hy)) _)

-- A loop whose rounds end in a state of the given kind.
theorem Emits.foldlM_kept {row : List β} {visit : α → β → Search α} {kind : α → Prop}
    {events : β → List (Nat × Nat)}
    (h : ∀ x ∈ row, ∀ a, kind a → ∃ a', kind a' ∧ Emits (visit a x) a' (events x)) (a : α)
    (ha : kind a) : ∃ a', kind a' ∧ Emits (row.foldlM visit a) a' (row.flatMap events) := by
  induction row generalizing a with
  | nil => exact ⟨a, ha, emits_pure a⟩
  | cons x row ih =>
      obtain ⟨a', ha', he⟩ := h x (by simp) a ha
      obtain ⟨a'', ha'', he'⟩ := ih (fun y hy => h y (List.mem_cons_of_mem _ hy)) a' ha'
      exact ⟨a'', ha'', by rw [List.flatMap_cons, List.foldlM_cons]; exact he.bind he'⟩

-- A loop over `row` follows a loop over the entries that pass a filter when
-- every round does and the other entries change nothing.
theorem emits_foldlM {σ : Type} {row : List β} {admits : β → Bool} {key : β → γ}
    {step : σ → γ → Option σ} (visit : α → β → Search α) (out : σ → List (Nat × Nat)) (abs : σ → α)
    (hskip : ∀ state, ∀ x ∈ row, admits x = false → Emits (visit (abs state) x) (abs state) [])
    (hstep : ∀ state state', ∀ x ∈ row, admits x = true → step state (key x) = some state' →
      ∃ events, out state' = out state ++ events ∧ Emits (visit (abs state) x) (abs state') events)
    {state state' : σ} (h : ((row.filter admits).map key).foldlM step state = some state') :
    ∃ events, out state' = out state ++ events ∧
      Emits (row.foldlM visit (abs state)) (abs state') events := by
  induction row generalizing state with
  | nil =>
      obtain rfl : state = state' := by simpa using h
      exact ⟨[], by simp, emits_pure _⟩
  | cons x row ih =>
      have ih := fun {s} => @ih (fun s y hy => hskip s y (List.mem_cons_of_mem _ hy))
        (fun s s' y hy => hstep s s' y (List.mem_cons_of_mem _ hy)) s
      cases ha : admits x with
      | false =>
          rw [List.filter_cons_of_neg (by simp [ha])] at h
          obtain ⟨events, ho, he⟩ := ih h
          exact ⟨events, ho, by
            rw [List.foldlM_cons]; exact (hskip state x (by simp) ha).bind he⟩
      | true =>
          rw [List.filter_cons_of_pos ha, List.map_cons, List.foldlM_cons] at h
          obtain ⟨middle, hm, h⟩ := Option.bind_eq_some_iff.mp h
          obtain ⟨events, ho, he⟩ := hstep state middle x (by simp) ha hm
          obtain ⟨more, ho', he'⟩ := ih h
          exact ⟨events ++ more, by rw [ho', ho, List.append_assoc], by
            rw [List.foldlM_cons]; exact he.bind he'⟩

theorem Emits.histogram {search : Search Unit} {events : List (Nat × Nat)}
    (h : Emits search () events) : search.histogram = (∅ : CycleHistogram).record events := by
  rw [Search.histogram, h ∅]
  cases (∅ : CycleHistogram).record events <;> rfl

variable {window : Prop}

theorem overflows_ofExcept {result : Except Error α} {what : String}
    (h : result = .error (.overflow_error what)) (hw : CountOverflow what ∨ window) :
    Overflows window (ofExcept result) := fun histogram => by
  subst h
  exact ⟨what, hw, rfl⟩

theorem Overflows.bind {search : Search α} {next : α → Search β} (h : Overflows window search) :
    Overflows window (search >>= next) := fun histogram => by
  obtain ⟨what, ho, hw⟩ := h histogram
  exact ⟨what, ho, by change (search histogram).bind (fun p => next p.1 p.2) = _; rw [hw]; rfl⟩

section Settles

variable {kind : α → Prop} {kind' : β → Prop}

-- A step that ends in a state of the given kind, or in an overflow.
def Settles (window : Prop) (search : Search α) (kind : α → Prop) : Prop :=
  ∀ histogram, (∃ what, (CountOverflow what ∨ window) ∧
      search histogram = .error (.overflow_error what)) ∨
    ∃ a histogram', search histogram = .ok (a, histogram') ∧ kind a

theorem settles_pure {a : α} (ha : kind a) : Settles window (pure a) kind :=
  fun histogram => Or.inr ⟨a, histogram, rfl, ha⟩

theorem settles_ofExcept {result : Except Error α} (h : Gives result kind) :
    Settles window (ofExcept result) kind := by
  rcases h with ⟨what, hc, rfl⟩ | ⟨a, rfl, ha⟩
  · exact fun histogram => Or.inl ⟨what, Or.inl hc, rfl⟩
  · exact fun histogram => Or.inr ⟨a, histogram, rfl, ha⟩

theorem Overflows.settles {search : Search α} (h : Overflows window search) :
    Settles window search kind :=
  fun histogram => Or.inl (h histogram)

theorem Emits.settles {search : Search α} {a : α} {events : List (Nat × Nat)}
    (h : Emits search a events) (ha : kind a) (hl : ∀ event ∈ events, 2 ≤ event.1) :
    Settles window search kind := fun histogram => by
  rw [h histogram]
  obtain ⟨histogram', hr⟩ | hr := histogram.record_cases events hl
  · exact Or.inr ⟨a, histogram', by rw [hr]; rfl, ha⟩
  · exact Or.inl ⟨_, Or.inl (Or.inl rfl), by rw [hr]; rfl⟩

theorem Emits.settles_then {search : Search α} {next : α → Search β} {a : α}
    (h : Emits search a []) (h' : Settles window (next a) kind') :
    Settles window (search >>= next) kind' := fun histogram => by
  change (∃ what, _ ∧ (search histogram).bind (fun p => next p.1 p.2) = _) ∨
    ∃ b last, (search histogram).bind (fun p => next p.1 p.2) = _ ∧ kind' b
  rw [h histogram]
  exact h' histogram

theorem settles_increment {length : Nat} (count : Nat) (hl : 2 ≤ length) :
    Settles window (increment length count) fun _ => True :=
  (emits_increment length count).settles trivial (List.forall_mem_singleton.mpr hl)

theorem Settles.bind {search : Search α} {next : α → Search β} (h : Settles window search kind)
    (h' : ∀ a, kind a → Settles window (next a) kind') : Settles window (search >>= next) kind' := by
  intro histogram
  change (∃ what, _ ∧ (search histogram).bind (fun p => next p.1 p.2) = _) ∨
    ∃ b last, (search histogram).bind (fun p => next p.1 p.2) = _ ∧ kind' b
  rcases h histogram with ⟨what, ho, hstop⟩ | ⟨a, middle, hrun, ha⟩
  · rw [hstop]
    exact Or.inl ⟨what, ho, rfl⟩
  · rw [hrun]
    exact h' a ha middle

theorem Settles.bind_overflows {search : Search α} {next : α → Search β}
    (h : Settles window search kind) (h' : ∀ a, kind a → Overflows window (next a)) :
    Overflows window (search >>= next) := by
  intro histogram
  change ∃ what, _ ∧ (search histogram).bind (fun p => next p.1 p.2) = _
  rcases h histogram with ⟨what, ho, hstop⟩ | ⟨a, middle, hrun, ha⟩
  · rw [hstop]
    exact ⟨what, ho, rfl⟩
  · rw [hrun]
    exact h' a ha middle

theorem Settles.foldlM {row : List β} {visit : α → β → Search α}
    (h : ∀ x ∈ row, ∀ a, kind a → Settles window (visit a x) kind) (a : α) (ha : kind a) :
    Settles window (row.foldlM visit a) kind := by
  induction row generalizing a with
  | nil => exact settles_pure ha
  | cons x row ih =>
      rw [List.foldlM_cons]
      exact (h x (by simp) a ha).bind (ih fun y hy => h y (List.mem_cons_of_mem _ hy))

-- One round that always overflows makes the loop overflow.
theorem overflows_foldlM {row : List β} {visit : α → β → Search α}
    (h : ∀ x ∈ row, ∀ a, kind a → Settles window (visit a x) kind)
    (hx : ∃ x ∈ row, ∀ a, kind a → Overflows window (visit a x)) (a : α) (ha : kind a) :
    Overflows window (row.foldlM visit a) := by
  induction row generalizing a with
  | nil => simp at hx
  | cons x row ih =>
      rw [List.foldlM_cons]
      obtain ⟨y, hy, hyo⟩ := hx
      rcases List.mem_cons.mp hy with rfl | hy
      · exact (hyo a ha).bind
      · exact (h x (by simp) a ha).bind_overflows
          (ih (fun z hz => h z (List.mem_cons_of_mem _ hz)) ⟨y, hy, hyo⟩)

end Settles

-- A step that ends in a state of the given kind and adds the given numbers at each
-- length where the counts fit, and overflows where they do not.
structure Exact (fits window : Prop) (search : Search α) (kind : α → Prop) (number : Nat → Nat) :
    Prop where
  ends : fits → ∃ a events, kind a ∧ Emits search a events ∧ (∀ event ∈ events, 2 ≤ event.1) ∧
    ∀ k, CycleHistogram.tally events k = number k
  stops : ¬fits → Overflows window search

variable {fits fits' : Prop} {kind : α → Prop} {kind' : β → Prop}

theorem Emits.exact {search : Search α} {a : α} {events : List (Nat × Nat)}
    (h : Emits search a events) (ha : kind a) (hl : ∀ event ∈ events, 2 ≤ event.1) :
    Exact True window search kind (CycleHistogram.tally events) where
  ends _ := ⟨a, events, ha, h, hl, fun _ => rfl⟩
  stops hfits := absurd trivial hfits

theorem exact_pure {a : α} (ha : kind a) : Exact True window (pure a) kind fun _ => 0 :=
  (emits_pure a).exact ha (by simp)

theorem Exact.congr {search : Search α} {number number' : Nat → Nat}
    (h : Exact fits window search kind number) (hfits : fits ↔ fits')
    (he : ∀ k, number k = number' k) : Exact fits' window search kind number' := by
  rwa [← propext hfits, ← funext he]

theorem Exact.bind {search : Search α} {next : α → Search β} {number more : Nat → Nat}
    (h : Exact fits window search kind number)
    (h' : ∀ a, kind a → Exact fits' window (next a) kind' more) :
    Exact (fits ∧ fits') window (search >>= next) kind' fun k => number k + more k := by
  constructor
  · intro hboth
    obtain ⟨a, events, ha, he, hl, ht⟩ := h.ends hboth.1
    obtain ⟨b, events', hb, he', hl', ht'⟩ := (h' a ha).ends hboth.2
    refine ⟨b, events ++ events', hb, he.bind he', fun event hm => ?_, fun k => ?_⟩
    · exact (List.mem_append.mp hm).elim (hl event) (hl' event)
    · rw [CycleHistogram.tally_append, ht, ht']
  · intro hnot
    by_cases hfits : fits
    · obtain ⟨a, events, ha, he, hl, -⟩ := h.ends hfits
      exact (he.settles rfl hl).bind_overflows fun b hb =>
        hb ▸ (h' a ha).stops fun hfits' => hnot ⟨hfits, hfits'⟩
    · exact (h.stops hfits).bind

theorem Exact.then {search : Search α} {next : α → Search β} {number : Nat → Nat}
    (h : Exact fits window search kind number)
    (h' : ∀ a, kind a → Exact True window (next a) kind' fun _ => 0) :
    Exact fits window (search >>= next) kind' number :=
  (h.bind h').congr (and_iff_left trivial) fun _ => Nat.add_zero _

-- A step without increments before the rest.
theorem Emits.exact_then {search : Search α} {next : α → Search β} {a : α} {number : Nat → Nat}
    (h : Emits search a []) (h' : Exact fits window (next a) kind' number) :
    Exact fits window (search >>= next) kind' number := by
  have hone : Exact True window search (· = a) (CycleHistogram.tally []) :=
    h.exact rfl (by simp)
  refine (hone.bind fun b hb => hb ▸ h').congr (and_iff_right trivial) fun k => ?_
  rw [CycleHistogram.tally_nil, Nat.zero_add]

-- A value that is read before the rest, or an overflow.
theorem Exact.read {result : Except Error α} {next : α → Search β} {number : Nat → Nat}
    {fits : α → Prop}
    (hover : ∀ error, result = .error error →
      ∃ what, error = .overflow_error what ∧ (CountOverflow what ∨ window))
    (h : ∀ a, result = .ok a → Exact (fits a) window (next a) kind' number) :
    Exact (∃ a, result = .ok a ∧ fits a) window (ofExcept result >>= next) kind' number := by
  cases hresult : result with
  | error error =>
      obtain ⟨what, rfl, hw⟩ := hover error hresult
      refine ⟨fun hex => ?_, fun _ => (overflows_ofExcept rfl hw).bind⟩
      obtain ⟨a, ha, -⟩ := hex
      cases ha
  | ok a =>
      refine ((emits_ofExcept rfl).exact_then (h a hresult)).congr ?_ fun _ => rfl
      simp

theorem Exact.gives {result : Except Error α} {next : α → Search β} {number : Nat → Nat}
    {fits : α → Prop} (hgives : Gives result kind)
    (h : ∀ a, kind a → Exact (fits a) window (next a) kind' number) :
    Exact (∃ a, result = .ok a ∧ fits a) window (ofExcept result >>= next) kind' number := by
  refine Exact.read (fun error he => ?_) fun a ha => h a ?_
  · rcases hgives with ⟨what, hc, hwhat⟩ | ⟨a, ha, -⟩
    · exact ⟨what, Except.error.inj (he.symm.trans hwhat), Or.inl hc⟩
    · cases he.symm.trans ha
  · rcases hgives with ⟨what, -, hwhat⟩ | ⟨b, hb, hkind⟩
    · cases ha.symm.trans hwhat
    · obtain rfl := Except.ok.inj (ha.symm.trans hb)
      exact hkind

theorem Exact.value {result : Except Error α} {next : α → Search β} {number : Nat → Nat}
    (hgives : Gives result kind) (h : ∀ a, kind a → Exact True window (next a) kind' number) :
    Exact (∃ a, result = .ok a) window (ofExcept result >>= next) kind' number :=
  (Exact.gives hgives h).congr (by simp only [and_true]) fun _ => rfl

theorem Exact.foldlM {row : List β} {visit : α → β → Search α} {fits : β → Prop}
    {number : β → Nat → Nat}
    (h : ∀ x ∈ row, ∀ a, kind a → Exact (fits x) window (visit a x) kind (number x)) (a : α)
    (ha : kind a) : Exact (∀ x ∈ row, fits x) window (row.foldlM visit a) kind
      fun k => (row.map fun x => number x k).sum := by
  induction row generalizing a with
  | nil => exact (exact_pure ha).congr (by simp) fun _ => rfl
  | cons x row ih =>
      rw [List.foldlM_cons]
      refine ((h x (by simp) a ha).bind fun a' ha' =>
        ih (fun y hy => h y (List.mem_cons_of_mem _ hy)) a' ha').congr ?_ fun k => ?_
      · simp
      · rw [List.map_cons, List.sum_cons]

theorem forM_eq_foldlM (xs : List β) (visit : β → Search Unit) :
    xs.forM visit = xs.foldlM (fun _ x => visit x) () := by
  induction xs with
  | nil => rfl
  | cons x xs ih =>
      change (visit x >>= fun _ => xs.forM visit) = visit x >>= xs.foldlM (fun _ x => visit x)
      rw [ih]

-- Loops without a state.
theorem settles_forM {xs : List β} {visit : β → Search Unit}
    (h : ∀ x ∈ xs, Settles window (visit x) fun _ => True) :
    Settles window (xs.forM visit) fun _ => True := by
  rw [forM_eq_foldlM]
  exact Settles.foldlM (fun x hx _ _ => h x hx) () trivial

theorem overflows_forM {xs : List β} {visit : β → Search Unit}
    (h : ∀ x ∈ xs, Settles window (visit x) fun _ => True)
    (hx : ∃ x ∈ xs, Overflows window (visit x)) : Overflows window (xs.forM visit) := by
  rw [forM_eq_foldlM]
  obtain ⟨x, hm, ho⟩ := hx
  exact overflows_foldlM (fun y hy _ _ => h y hy) ⟨x, hm, fun _ _ => ho⟩ () trivial

theorem Overflows.histogram {search : Search Unit} (h : Overflows window search) :
    ∃ what, search.histogram = .error (.overflow_error what) := by
  obtain ⟨what, -, hw⟩ := h ∅
  exact ⟨what, by rw [Search.histogram, hw]; rfl⟩

end Search

end CycleEnum
