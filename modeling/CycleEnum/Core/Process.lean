import Mathlib.Logic.Basic

namespace CycleEnum

-- A piece of a program that its environment has a part in: what it may print, item by item,
-- and what it may come to.
def Process (ω ε α : Type) := List ω → Except ε α → Prop

namespace Process

variable {ω ε α β σ : Type}

-- A failure ends the program, but what is printed before it stays printed.
inductive Bind (first : Process ω ε α) (next : α → Process ω ε β) : Process ω ε β
  | failed {printed : List ω} {error : ε} (h : first printed (.error error)) :
      Bind first next printed (.error error)
  | passed {printed more : List ω} {value : α} {result : Except ε β}
      (h : first printed (.ok value)) (hnext : next value more result) :
      Bind first next (printed ++ more) result

instance : Monad (Process ω ε) where
  pure value := fun printed result => printed = [] ∧ result = .ok value
  bind := Bind

-- A computation that prints nothing, and one whose result the environment picks.
def settled (result : Except ε α) : Process ω ε α := fun printed settled => printed = [] ∧ settled = result

def picked (results : Except ε α → Prop) : Process ω ε α := fun printed result =>
  printed = [] ∧ results result

def print (items : List ω) : Process ω ε Unit := fun printed result =>
  printed = items ∧ result = .ok ()

-- Some value of a kind.
def any (kind : α → Prop) : Process ω ε α := picked fun result => ∃ value, kind value ∧ result = .ok value

-- A value, or a failure, of a kind.
def Settles (post : α → Prop) (fails : ε → Prop) : Except ε α → Prop
  | .ok value => post value
  | .error error => fails error

namespace Settles

variable {result : Except ε α} {next : α → Except ε β} {post post' : α → Prop} {last : β → Prop}
  {fails fails' : ε → Prop}

theorem weaken (h : Settles post fails result) (hpost : ∀ value, post value → post' value)
    (hfails : ∀ error, fails error → fails' error) : Settles post' fails' result := by
  cases result with
  | ok value => exact hpost value h
  | error error => exact hfails error h

theorem bind (h : Settles post fails result)
    (h' : ∀ value, post value → Settles last fails (next value)) :
    Settles last fails (result >>= next) := by
  cases result with
  | ok value => exact h' value h
  | error error => exact h

theorem map {f : α → β} (h : Settles post fails result) (h' : ∀ value, post value → last (f value)) :
    Settles last fails (result.map f) := by
  cases result with
  | ok value => exact h' value h
  | error error => exact h

theorem of_map {f : α → β} (h : Settles (fun _ => True) fails (result.map f)) :
    Settles (fun _ => True) fails result := by
  cases result with
  | ok value => trivial
  | error error => exact h

theorem foldlM {holds : σ → Prop} {step : σ → α → Except ε σ} {items : List α}
    (hstep : ∀ state item, holds state → Settles holds fails (step state item)) {state : σ}
    (hstart : holds state) : Settles holds fails (items.foldlM step state) := by
  induction items generalizing state with
  | nil => exact hstart
  | cons item items ih =>
      rw [List.foldlM_cons]
      exact (hstep state item hstart).bind fun next hnext => ih hnext

theorem mapM {f : α → Except ε β} {items : List α}
    (h : ∀ item, Settles (fun _ => True) fails (f item)) :
    Settles (fun _ => True) fails (items.mapM f) := by
  induction items with
  | nil => trivial
  | cons item items ih =>
      rw [List.mapM_cons]
      exact (h item).bind fun _ _ => ih.bind fun _ _ => trivial

theorem forM {f : α → Except ε Unit} {items : List α}
    (h : ∀ item, Settles (fun _ => True) fails (f item)) :
    Settles (fun _ => True) fails (items.forM f) := by
  induction items with
  | nil => trivial
  | cons item items ih => exact (h item).bind fun _ _ => ih

-- What the value satisfies can be found apart from what the failures do.
theorem of_ok (h : Settles (fun _ => True) fails result) (hpost : ∀ value, result = .ok value → post value) :
    Settles post fails result := by
  cases result with
  | ok value => exact hpost value rfl
  | error error => exact h

end Settles

-- What the items, the value and the failures of a piece of a program satisfy.
def Ensures (process : Process ω ε α) (shows : ω → Prop) (post : α → Prop) (fails : ε → Prop) : Prop :=
  ∀ printed result, process printed result →
    (∀ item ∈ printed, shows item) ∧ Settles post fails result

variable {process first : Process ω ε α} {next : α → Process ω ε β} {shows shows' : ω → Prop}
  {post post' : α → Prop} {last : β → Prop} {fails fails' : ε → Prop}

theorem bind_ok_iff {printed : List ω} {value : β} : (first >>= next) printed (.ok value) ↔
    ∃ middle front back, first front (.ok middle) ∧ next middle back (.ok value) ∧
      printed = front ++ back := by
  constructor
  · intro h
    generalize hresult : (Except.ok value : Except ε β) = result at h
    cases h with
    | failed h => cases hresult
    | passed h hnext => exact ⟨_, _, _, h, hresult ▸ hnext, rfl⟩
  · intro h
    obtain ⟨middle, front, back, hfirst, hnext, rfl⟩ := h
    exact .passed hfirst hnext

@[simp] theorem pure_iff {value : α} {printed : List ω} {result : Except ε α} :
    (pure value : Process ω ε α) printed result ↔ printed = [] ∧ result = .ok value := Iff.rfl

@[simp] theorem settled_iff {found : Except ε α} {printed : List ω} {result : Except ε α} :
    settled found printed result ↔ printed = [] ∧ result = found := Iff.rfl

@[simp] theorem picked_iff {results : Except ε α → Prop} {printed : List ω} {result : Except ε α} :
    picked results printed result ↔ printed = [] ∧ results result := Iff.rfl

@[simp] theorem print_iff {items printed : List ω} {result : Except ε Unit} :
    (print items : Process ω ε Unit) printed result ↔ printed = items ∧ result = .ok () := Iff.rfl

namespace Ensures

theorem pure {value : α} (h : post value) :
    (Pure.pure value : Process ω ε α).Ensures shows post fails := by
  rintro printed result ⟨rfl, rfl⟩
  exact ⟨by simp, h⟩

theorem settled {found : Except ε α} (h : Settles post fails found) :
    (settled found : Process ω ε α).Ensures shows post fails := by
  rintro printed result ⟨rfl, rfl⟩
  exact ⟨by simp, h⟩

theorem picked {results : Except ε α → Prop} (h : ∀ result, results result → Settles post fails result) :
    (picked results : Process ω ε α).Ensures shows post fails := by
  rintro printed result ⟨rfl, hresult⟩
  exact ⟨by simp, h result hresult⟩

theorem any {kind : α → Prop} (h : ∀ value, kind value → post value) :
    (any kind : Process ω ε α).Ensures shows post fails := by
  refine picked fun result hresult => ?_
  obtain ⟨value, hkind, rfl⟩ := hresult
  exact h value hkind

theorem print {items : List ω} {post : Unit → Prop} (hshows : ∀ item ∈ items, shows item)
    (hpost : post ()) : (print items : Process ω ε Unit).Ensures shows post fails := by
  rintro printed result ⟨rfl, rfl⟩
  exact ⟨hshows, hpost⟩

theorem bind (h : first.Ensures shows post fails) (h' : ∀ value, post value →
    (next value).Ensures shows last fails) : (first >>= next).Ensures shows last fails := by
  intro printed result hrun
  cases hrun with
  | failed hfailed => exact h _ _ hfailed
  | passed hpassed hnext =>
      obtain ⟨hfront, hpost⟩ := h _ _ hpassed
      obtain ⟨hback, hlast⟩ := h' _ hpost _ _ hnext
      exact ⟨fun item hi => (List.mem_append.mp hi).elim (hfront item) (hback item), hlast⟩

theorem weaken (h : process.Ensures shows post fails) (hshows : ∀ item, shows item → shows' item)
    (hpost : ∀ value, post value → post' value) (hfails : ∀ error, fails error → fails' error) :
    process.Ensures shows' post' fails' := by
  intro printed result hrun
  obtain ⟨hitems, hresult⟩ := h printed result hrun
  refine ⟨fun item hi => hshows item (hitems item hi), ?_⟩
  cases result with
  | ok value => exact hpost value hresult
  | error error => exact hfails error hresult

-- What every round keeps holds when a loop ends, and a failure is that of some round.
theorem foldlM {holds : σ → Prop} {step : σ → α → Process ω ε σ} {items : List α}
    (hstep : ∀ item ∈ items, ∀ state, holds state → (step state item).Ensures shows holds fails)
    {state : σ} (hstart : holds state) : (items.foldlM step state).Ensures shows holds fails := by
  induction items generalizing state with
  | nil => exact pure hstart
  | cons item items ih =>
      rw [List.foldlM_cons]
      exact (hstep item List.mem_cons_self state hstart).bind fun next hnext =>
        ih (fun other ho => hstep other (List.mem_cons_of_mem _ ho)) hnext

end Ensures

-- Every run that comes to a value has printed the item.
def Emits (process : Process ω ε α) (item : ω) : Prop :=
  ∀ printed value, process printed (.ok value) → item ∈ printed

namespace Emits

variable {item : ω}

theorem print {items : List ω} (h : item ∈ items) : (print items : Process ω ε Unit).Emits item := by
  rintro printed value ⟨rfl, -⟩
  exact h

theorem front (h : first.Emits item) : (first >>= next).Emits item := by
  intro printed value hrun
  obtain ⟨middle, front, back, hfirst, -, rfl⟩ := bind_ok_iff.mp hrun
  exact List.mem_append_left _ (h _ _ hfirst)

-- What is known of the value of the first part is there for the second.
theorem back (h : first.Ensures shows post fails)
    (h' : ∀ value, post value → (next value).Emits item) : (first >>= next).Emits item := by
  intro printed value hrun
  obtain ⟨middle, front, back, hfirst, hnext, rfl⟩ := bind_ok_iff.mp hrun
  exact List.mem_append_right _ (h' middle (h _ _ hfirst).2 _ _ hnext)

end Emits

-- Some run comes to the value.
def Yields (process : Process ω ε α) (value : α) : Prop := ∃ printed, process printed (.ok value)

namespace Yields

theorem bind {middle : α} {value : β} (h : first.Yields middle) (h' : (next middle).Yields value) :
    (first >>= next).Yields value := by
  obtain ⟨front, hfirst⟩ := h
  obtain ⟨back, hnext⟩ := h'
  exact ⟨front ++ back, .passed hfirst hnext⟩

theorem pure (value : α) : (Pure.pure value : Process ω ε α).Yields value := ⟨[], rfl, rfl⟩

theorem print (items : List ω) : (print items : Process ω ε Unit).Yields () := ⟨items, rfl, rfl⟩

theorem any {kind : α → Prop} {value : α} (h : kind value) : (any kind : Process ω ε α).Yields value :=
  ⟨[], rfl, value, h, rfl⟩

theorem picked {results : Except ε α → Prop} {value : α} (h : results (.ok value)) :
    (picked results : Process ω ε α).Yields value := ⟨[], rfl, h⟩

-- What is ensured of the values holds of one that some run comes to.
theorem value {value : α} (h : process.Yields value) (h' : process.Ensures shows post fails) :
    post value := by
  obtain ⟨printed, hrun⟩ := h
  exact (h' printed _ hrun).2

end Yields

end Process

end CycleEnum
