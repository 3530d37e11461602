import Mathlib.Logic.Relation
import Wrapfs.Foundations.Ledger

/-!
# Computations that keep a ledger

An `Op` is a piece of code that works on a state, takes and gives back resources and may stop with
a fault.  Its outcome carries the events it has left on the ledger, up to the fault if there is
one: a fault is not an exception that someone catches but the end of the run, with everything that
was held then still held.  The state is threaded explicitly, and the events are part of the
outcome and not of the state, so that code cannot read its own ledger.

Five judgements about such code are developed here, each with one rule for every way to build an
`Op`.

* `Ensures m s held Q`: started in `s` with the resources `held` outstanding, `m` never gives back
  what is not outstanding, and if it returns, its value, its final state and what is outstanding
  then meet `Q`.  The rules are equivalences tagged for `simp`, so that a straight-line body is
  executed by rewriting.  `held` is arbitrary throughout, which is the frame rule.
* `Balanced f m`: the special case in which all that was taken is given back and the observation
  `f` of the state is kept.  It composes by `Balanced.bind`, without running anything.
* `Yields m s P`: the judgement for results that are not about the ledger.  It only speaks of the
  value and the state the code returns with, and every `Ensures` gives one (`Ensures.yields`).
* `Returns m s P`: its total counterpart.  The code does return, so that a rule for code that
  follows a pointer is existential where that of `Yields` is universal.
* `Preserves I m` and `Moves r f m`: invariants.  `Moves` says what the code can do, as steps of a
  relation on an observation of the state; `Moves.preserves` then gives every invariant of the
  steps at once.  This is the form to use when several invariants are wanted of the same code.

## Code of a part

`zoom` runs code written for a part of a state on the whole, with its resources renamed.  The laws
of `IsPart` are those of a lens.  `Ensures.zoom` is what makes it worth having: a postcondition
proved for the part holds on the whole with anything else held beside it, provided that the
renaming is injective; without that two resources of the part could become one.
-/

namespace Ledger

variable {κ ρ ε α β : Type}

/-- What a piece of code comes to. -/
inductive Outcome (κ ρ ε α : Type) where
  | done (val : α) (state : κ) (events : List (Event ρ))
  | fault (e : ε) (events : List (Event ρ))

/-- The outcome with events that came before it. -/
def Outcome.after (es : List (Event ρ)) : Outcome κ ρ ε α → Outcome κ ρ ε α
  | .done val state fs => .done val state (es ++ fs)
  | .fault e fs => .fault e (es ++ fs)

/-- A piece of code. -/
def Op (κ ρ ε α : Type) : Type := κ → Outcome κ ρ ε α

instance : Monad (Op κ ρ ε) where
  pure a := fun s => .done a s []
  bind m f := fun s =>
    match m s with
    | .done a s' es => (f a s').after es
    | .fault e es => .fault e es

/-- A sequence whose first part returns. -/
theorem bind_of_done {m : Op κ ρ ε β} {s s' : κ} {b : β} {es : List (Event ρ)}
    (hm : m s = .done b s' es) (f : β → Op κ ρ ε α) : (m >>= f) s = (f b s').after es := by
  show (match m s with
    | .done a s' es => (f a s').after es
    | .fault e es => .fault e es) = _
  rw [hm]

/-- A sequence whose first part stops: the rest is never run. -/
theorem bind_of_fault {m : Op κ ρ ε β} {s : κ} {e : ε} {es : List (Event ρ)}
    (hm : m s = .fault e es) (f : β → Op κ ρ ε α) : (m >>= f) s = .fault e es := by
  show (match m s with
    | .done a s' es => (f a s').after es
    | .fault e es => .fault e es) = _
  rw [hm]

/-- Look at the state. -/
def look : Op κ ρ ε κ := fun s => .done s s []

/-- Change the state. -/
def change (f : κ → κ) : Op κ ρ ε Unit := fun s => .done () (f s) []

/-- Stop. -/
def fault (e : ε) : Op κ ρ ε α := fun _ => .fault e []

/-- Take a resource. -/
def acquire (r : ρ) : Op κ ρ ε Unit := fun s => .done () s [.acquire r]

/-- Give a resource back. -/
def release (r : ρ) : Op κ ρ ε Unit := fun s => .done () s [.release r]

variable [DecidableEq ρ]

/-- The events are in order and, unless it is a fault, the outcome meets the
postcondition. -/
def Outcome.Meets (held : Multiset ρ) (Q : α → κ → Multiset ρ → Prop) :
    Outcome κ ρ ε α → Prop
  | .done a s es => ∃ held', replay held es = some held' ∧ Q a s held'
  | .fault _ es => ∃ held', replay held es = some held'

/-- Earlier events are replayed first. -/
theorem Outcome.meets_after {held : Multiset ρ} {Q : α → κ → Multiset ρ → Prop}
    {es : List (Event ρ)} {o : Outcome κ ρ ε α} :
    (o.after es).Meets held Q ↔ ∃ mid, replay held es = some mid ∧ o.Meets mid Q := by
  cases o with
  | done a s fs =>
      constructor
      · rintro ⟨held', hreplay, hQ⟩
        obtain ⟨mid, hes, hfs⟩ := replay_append_eq_some.mp hreplay
        exact ⟨mid, hes, held', hfs, hQ⟩
      · rintro ⟨mid, hes, held', hfs, hQ⟩
        exact ⟨held', replay_append_eq_some.mpr ⟨mid, hes, hfs⟩, hQ⟩
  | fault e fs =>
      constructor
      · rintro ⟨held', hreplay⟩
        obtain ⟨mid, hes, hfs⟩ := replay_append_eq_some.mp hreplay
        exact ⟨mid, hes, held', hfs⟩
      · rintro ⟨mid, hes, held', hfs⟩
        exact ⟨held', replay_append_eq_some.mpr ⟨mid, hes, hfs⟩⟩

/-- The code keeps its ledger in order and, if it returns, meets the
postcondition. -/
def Ensures (m : Op κ ρ ε α) (s : κ) (held : Multiset ρ)
    (Q : α → κ → Multiset ρ → Prop) : Prop :=
  (m s).Meets held Q

variable {s : κ} {held : Multiset ρ} {Q R : α → κ → Multiset ρ → Prop}

/-- **The consequence rule.** -/
theorem Ensures.mono {m : Op κ ρ ε α} (h : Ensures m s held Q)
    (hQR : ∀ a s' held', Q a s' held' → R a s' held') : Ensures m s held R := by
  unfold Ensures at h ⊢
  cases hm : m s with
  | done a s' es =>
      rw [hm] at h
      obtain ⟨held', hreplay, hQ⟩ := h
      exact ⟨held', hreplay, hQR a s' held' hQ⟩
  | fault e es =>
      rw [hm] at h
      exact h

/-- What a call that returned has done. -/
theorem Ensures.done {m : Op κ ρ ε α} (h : Ensures m s held Q) {a : α} {s' : κ}
    {es : List (Event ρ)} (hm : m s = .done a s' es) :
    ∃ held', replay held es = some held' ∧ Q a s' held' := by
  unfold Ensures at h
  rw [hm] at h
  exact h

/-- What a call that stopped has done. -/
theorem Ensures.fault {m : Op κ ρ ε α} (h : Ensures m s held Q) {e : ε}
    {es : List (Event ρ)} (hm : m s = .fault e es) : ∃ held', replay held es = some held' := by
  unfold Ensures at h
  rw [hm] at h
  exact h

/-- **The rule of `pure`.** -/
@[simp] theorem ensures_pure (a : α) :
    Ensures (pure a : Op κ ρ ε α) s held Q ↔ Q a s held := by
  constructor
  · rintro ⟨held', hreplay, hQ⟩
    cases hreplay
    exact hQ
  · intro hQ
    exact ⟨held, rfl, hQ⟩

/-- **The sequence rule.** -/
@[simp] theorem ensures_bind (m : Op κ ρ ε β) (f : β → Op κ ρ ε α) :
    Ensures (m >>= f) s held Q ↔
      Ensures m s held fun b s' held' => Ensures (f b) s' held' Q := by
  show Outcome.Meets held Q (match m s with
    | .done a s' es => (f a s').after es
    | .fault e es => .fault e es) ↔ (m s).Meets held _
  cases m s with
  | done b s' es => exact Outcome.meets_after
  | fault e es => exact Iff.rfl

/-- Looking at the state. -/
@[simp] theorem ensures_look {Q : κ → κ → Multiset ρ → Prop} :
    Ensures (look : Op κ ρ ε κ) s held Q ↔ Q s s held :=
  ensures_pure (ε := ε) s

/-- **The assignment rule.** -/
@[simp] theorem ensures_change (f : κ → κ) {Q : Unit → κ → Multiset ρ → Prop} :
    Ensures (change f : Op κ ρ ε Unit) s held Q ↔ Q () (f s) held :=
  ensures_pure (ε := ε) ()

/-- Code that stops ensures everything of its return. -/
@[simp] theorem ensures_fault (e : ε) : Ensures (fault e : Op κ ρ ε α) s held Q :=
  ⟨held, rfl⟩

/-- Taking puts the resource on the ledger. -/
@[simp] theorem ensures_acquire (r : ρ) {Q : Unit → κ → Multiset ρ → Prop} :
    Ensures (acquire r : Op κ ρ ε Unit) s held Q ↔ Q () s (r ::ₘ held) :=
  ensures_pure (ε := ε) ()

/-- Giving back what is outstanding, wherever it is on the ledger. -/
theorem ensures_release {r : ρ} (hr : r ∈ held) {Q : Unit → κ → Multiset ρ → Prop} :
    Ensures (release r : Op κ ρ ε Unit) s held Q ↔ Q () s (held.erase r) := by
  constructor
  · rintro ⟨held', hreplay, hQ⟩
    rw [replay_release_of_mem hr] at hreplay
    cases hreplay
    exact hQ
  · intro hQ
    exact ⟨held.erase r, replay_release_of_mem hr [], hQ⟩

/-- Giving back what was taken last. -/
@[simp] theorem ensures_release_head (r : ρ) {Q : Unit → κ → Multiset ρ → Prop} :
    Ensures (release r : Op κ ρ ε Unit) s (r ::ₘ held) Q ↔ Q () s held := by
  rw [ensures_release (Multiset.mem_cons_self r held), Multiset.erase_cons_head]

/-- **The conditional rule.** -/
@[simp] theorem ensures_ite (c : Prop) [Decidable c] (m n : Op κ ρ ε α) :
    Ensures (if c then m else n) s held Q ↔
      if c then Ensures m s held Q else Ensures n s held Q := by
  split <;> rfl

/-- Giving back what was taken before the last acquisition, and before the last
two. -/
@[simp] theorem ensures_release_second (q r : ρ) {Q : Unit → κ → Multiset ρ → Prop} :
    Ensures (release r : Op κ ρ ε Unit) s (q ::ₘ r ::ₘ held) Q ↔ Q () s (q ::ₘ held) := by
  rw [Multiset.cons_swap, ensures_release_head]

/-- And before the last two. -/
@[simp] theorem ensures_release_third (p q r : ρ) {Q : Unit → κ → Multiset ρ → Prop} :
    Ensures (release r : Op κ ρ ε Unit) s (p ::ₘ q ::ₘ r ::ₘ held) Q ↔
      Q () s (p ::ₘ q ::ₘ held) := by
  rw [Multiset.cons_swap q r, ensures_release_second]

/-! ## Balanced code

Code that returns with exactly what was outstanding when it started, and that does
not change what is observed of the state through `f`. -/

section Balanced

variable {τ : Type} {f : κ → τ}

/-- The code gives back all it takes and keeps the observation `f`. -/
def Balanced (f : κ → τ) (m : Op κ ρ ε α) : Prop :=
  ∀ s held, Ensures m s held fun _ s' held' => held' = held ∧ f s' = f s

/-- An observation of what is observed. -/
theorem Balanced.comp {υ : Type} {m : Op κ ρ ε α} (hm : Balanced f m) (g : τ → υ) :
    Balanced (fun s => g (f s)) m := by
  intro s held
  refine (hm s held).mono ?_
  rintro _ s' held' ⟨hheld, hs'⟩
  exact ⟨hheld, congrArg g hs'⟩

theorem Balanced.pure (a : α) : Balanced f (pure a : Op κ ρ ε α) := by
  intro s held
  rw [ensures_pure]
  exact ⟨rfl, rfl⟩

/-- Balanced code in sequence. -/
theorem Balanced.bind {m : Op κ ρ ε β} {g : β → Op κ ρ ε α} (hm : Balanced f m)
    (hg : ∀ b, Balanced f (g b)) : Balanced f (m >>= g) := by
  intro s held
  rw [ensures_bind]
  refine (hm s held).mono ?_
  rintro b s' _ ⟨rfl, hs'⟩
  refine (hg b s' _).mono ?_
  rintro a s'' _ ⟨rfl, hs''⟩
  exact ⟨rfl, hs''.trans hs'⟩

theorem Balanced.look : Balanced f (look : Op κ ρ ε κ) := by
  intro s held
  rw [ensures_look]
  exact ⟨rfl, rfl⟩

/-- A change the observation does not see. -/
theorem Balanced.change {g : κ → κ} (hg : ∀ s, f (g s) = f s) :
    Balanced f (change g : Op κ ρ ε Unit) := by
  intro s held
  rw [ensures_change]
  exact ⟨rfl, hg s⟩

theorem Balanced.ite {c : Prop} [Decidable c] {m n : Op κ ρ ε α} (hm : Balanced f m)
    (hn : Balanced f n) : Balanced f (if c then m else n) := by
  split
  · exact hm
  · exact hn

/-- Code between taking something and giving it back. -/
theorem Balanced.bracket (r : ρ) {m : Op κ ρ ε α} (hm : Balanced f m) :
    Balanced f (do
      acquire r
      let a ← m
      release r
      Pure.pure a : Op κ ρ ε α) := by
  intro s held
  simp only [ensures_bind, ensures_acquire]
  refine (hm s _).mono ?_
  rintro a s' _ ⟨rfl, hs'⟩
  rw [ensures_release_head, ensures_pure]
  exact ⟨rfl, hs'⟩

end Balanced

/-! ## Without the ledger -/

section Yields

variable {P R : α → κ → Prop}

/-- If the code returns from `s`, its value and its final state meet `P`. -/
def Yields (m : Op κ ρ ε α) (s : κ) (P : α → κ → Prop) : Prop :=
  ∀ a s' es, m s = .done a s' es → P a s'

/-- Forgetting the ledger. -/
theorem Ensures.yields {m : Op κ ρ ε α} (h : Ensures m s held Q) :
    Yields m s fun a s' => ∃ held', Q a s' held' := by
  intro a s' es hm
  obtain ⟨held', -, hQ⟩ := h.done hm
  exact ⟨held', hQ⟩

/-- A fact about the ledger and one that is not. -/
theorem Ensures.and_yields {m : Op κ ρ ε α} (h : Ensures m s held Q) (hP : Yields m s P) :
    Ensures m s held fun a s' held' => Q a s' held' ∧ P a s' := by
  unfold Ensures
  cases hm : m s with
  | done a s' es =>
      obtain ⟨held', hreplay, hQ⟩ := h.done hm
      exact ⟨held', hreplay, hQ, hP a s' es hm⟩
  | fault e es => exact h.fault hm

omit [DecidableEq ρ] in
/-- **The consequence rule.** -/
theorem Yields.mono {m : Op κ ρ ε α} (h : Yields m s P) (hPR : ∀ a s', P a s' → R a s') :
    Yields m s R :=
  fun a s' es hm => hPR a s' (h a s' es hm)

omit [DecidableEq ρ] in
/-- Two postconditions of one piece of code. -/
theorem Yields.and {m : Op κ ρ ε α} (hP : Yields m s P) (hR : Yields m s R) :
    Yields m s fun a s' => P a s' ∧ R a s' :=
  fun a s' es hm => ⟨hP a s' es hm, hR a s' es hm⟩

omit [DecidableEq ρ] in
@[simp] theorem yields_true (m : Op κ ρ ε α) : Yields m s fun _ _ => True :=
  fun _ _ _ _ => trivial

/-- Balanced code keeps what is observed. -/
theorem Balanced.yields {τ : Type} {f : κ → τ} {m : Op κ ρ ε α} (hm : Balanced f m) (s : κ) :
    Yields m s fun _ s' => f s' = f s := by
  refine (hm s 0).yields.mono ?_
  rintro a s' ⟨_, -, hs'⟩
  exact hs'

omit [DecidableEq ρ] in
@[simp] theorem yields_pure (a : α) : Yields (pure a : Op κ ρ ε α) s P ↔ P a s := by
  constructor
  · intro h
    exact h a s [] rfl
  · intro hP b s' es hm
    cases hm
    exact hP

omit [DecidableEq ρ] in
/-- **The sequence rule.** -/
@[simp] theorem yields_bind (m : Op κ ρ ε β) (f : β → Op κ ρ ε α) :
    Yields (m >>= f) s P ↔ Yields m s fun b s' => Yields (f b) s' P := by
  have hbind : (m >>= f) s = match m s with
      | .done a s' es => (f a s').after es
      | .fault e es => .fault e es := rfl
  constructor
  · intro h b s' es hm a s'' fs hf
    refine h a s'' (es ++ fs) ?_
    rw [hbind, hm]
    simp only [hf, Outcome.after]
  · intro h a s'' fs hmf
    rw [hbind] at hmf
    cases hm : m s with
    | fault e es =>
        rw [hm] at hmf
        cases hmf
    | done b s' es =>
        simp only [hm] at hmf
        cases hf : f b s' with
        | fault e es =>
            rw [hf] at hmf
            cases hmf
        | done a' s₁ es₁ =>
            rw [hf] at hmf
            cases hmf
            exact h b s' es hm a s'' es₁ hf

omit [DecidableEq ρ] in
@[simp] theorem yields_look {P : κ → κ → Prop} :
    Yields (look : Op κ ρ ε κ) s P ↔ P s s :=
  yields_pure (ρ := ρ) (ε := ε) s

omit [DecidableEq ρ] in
@[simp] theorem yields_change (f : κ → κ) {P : Unit → κ → Prop} :
    Yields (change f : Op κ ρ ε Unit) s P ↔ P () (f s) :=
  yields_pure (ρ := ρ) (ε := ε) ()

omit [DecidableEq ρ] in
/-- Code that stops yields nothing, so anything holds of what it yields. -/
@[simp] theorem yields_fault (e : ε) : Yields (fault e : Op κ ρ ε α) s P := by
  intro a s' es hm
  cases hm

omit [DecidableEq ρ] in
/-- The ledger is not part of what is yielded. -/
@[simp] theorem yields_acquire (r : ρ) {P : Unit → κ → Prop} :
    Yields (acquire r : Op κ ρ ε Unit) s P ↔ P () s := by
  constructor
  · intro h
    exact h () s [.acquire r] rfl
  · intro hP a s' es hm
    cases hm
    exact hP

omit [DecidableEq ρ] in
/-- In particular nothing is asked of what is given back. -/
@[simp] theorem yields_release (r : ρ) {P : Unit → κ → Prop} :
    Yields (release r : Op κ ρ ε Unit) s P ↔ P () s := by
  constructor
  · intro h
    exact h () s [.release r] rfl
  · intro hP a s' es hm
    cases hm
    exact hP

omit [DecidableEq ρ] in
@[simp] theorem yields_ite (c : Prop) [Decidable c] (m n : Op κ ρ ε α) :
    Yields (if c then m else n) s P ↔ if c then Yields m s P else Yields n s P := by
  split <;> rfl

end Yields

/-! ## Code that returns -/

section Returns

variable {P : α → κ → Prop}

/-- The code returns from `s`, and its value and its final state meet `P`. -/
def Returns (m : Op κ ρ ε α) (s : κ) (P : α → κ → Prop) : Prop :=
  ∃ a s' es, m s = .done a s' es ∧ P a s'

omit [DecidableEq ρ]

/-- **The consequence rule.** -/
theorem Returns.mono {R : α → κ → Prop} {m : Op κ ρ ε α} (h : Returns m s P)
    (hPR : ∀ a s', P a s' → R a s') : Returns m s R := by
  obtain ⟨a, s', es, hm, hP⟩ := h
  exact ⟨a, s', es, hm, hPR a s' hP⟩

/-- Two postconditions of one piece of code, which returns once. -/
theorem Returns.and {R : α → κ → Prop} {m : Op κ ρ ε α} (hP : Returns m s P) (hR : Returns m s R) :
    Returns m s fun a s' => P a s' ∧ R a s' := by
  obtain ⟨a, s', es, hm, ha⟩ := hP
  obtain ⟨b, t, fs, hm', hb⟩ := hR
  rw [hm] at hm'
  cases hm'
  exact ⟨a, s', es, hm, ha, hb⟩

/-- Returning is something. -/
theorem not_returns_false {m : Op κ ρ ε α} : ¬ Returns m s fun _ _ => False := by
  rintro ⟨_, _, _, _, h⟩
  exact h

@[simp] theorem returns_pure (a : α) : Returns (pure a : Op κ ρ ε α) s P ↔ P a s := by
  constructor
  · rintro ⟨b, s', es, hm, hP⟩
    cases hm
    exact hP
  · intro hP
    exact ⟨a, s, [], rfl, hP⟩

/-- **The sequence rule**: both parts return. -/
@[simp] theorem returns_bind (m : Op κ ρ ε β) (f : β → Op κ ρ ε α) :
    Returns (m >>= f) s P ↔ Returns m s fun b s' => Returns (f b) s' P := by
  have hbind : (m >>= f) s = match m s with
      | .done a s' es => (f a s').after es
      | .fault e es => .fault e es := rfl
  constructor
  · rintro ⟨a, s'', fs, hmf, hP⟩
    rw [hbind] at hmf
    cases hm : m s with
    | fault e es =>
        rw [hm] at hmf
        cases hmf
    | done b s' es =>
        simp only [hm] at hmf
        refine ⟨b, s', es, hm, ?_⟩
        cases hf : f b s' with
        | fault e es =>
            rw [hf] at hmf
            cases hmf
        | done a' s₁ es₁ =>
            rw [hf] at hmf
            cases hmf
            exact ⟨a, s'', es₁, hf, hP⟩
  · rintro ⟨b, s', es, hm, a, s'', fs, hf, hP⟩
    refine ⟨a, s'', es ++ fs, ?_, hP⟩
    rw [hbind, hm]
    simp only [hf, Outcome.after]

@[simp] theorem returns_look {P : κ → κ → Prop} :
    Returns (look : Op κ ρ ε κ) s P ↔ P s s :=
  returns_pure (ρ := ρ) (ε := ε) s

@[simp] theorem returns_change (f : κ → κ) {P : Unit → κ → Prop} :
    Returns (change f : Op κ ρ ε Unit) s P ↔ P () (f s) :=
  returns_pure (ρ := ρ) (ε := ε) ()

/-- Code that stops does not return. -/
@[simp] theorem not_returns_fault (e : ε) : ¬ Returns (fault e : Op κ ρ ε α) s P := by
  rintro ⟨a, s', es, hm, -⟩
  cases hm

/-- Taking always succeeds. -/
@[simp] theorem returns_acquire (r : ρ) {P : Unit → κ → Prop} :
    Returns (acquire r : Op κ ρ ε Unit) s P ↔ P () s := by
  constructor
  · rintro ⟨a, s', es, hm, hP⟩
    cases hm
    exact hP
  · intro hP
    exact ⟨(), s, _, rfl, hP⟩

/-- So does giving back, as far as the code itself is concerned. -/
@[simp] theorem returns_release (r : ρ) {P : Unit → κ → Prop} :
    Returns (release r : Op κ ρ ε Unit) s P ↔ P () s := by
  constructor
  · rintro ⟨a, s', es, hm, hP⟩
    cases hm
    exact hP
  · intro hP
    exact ⟨(), s, _, rfl, hP⟩

end Returns

/-! ## Code that keeps an invariant -/

section Preserves

variable {I : κ → Prop}

/-- Started in a state that meets `I`, the code returns, if it does, in one that does. -/
def Preserves (I : κ → Prop) (m : Op κ ρ ε α) : Prop :=
  ∀ s, I s → Yields m s fun _ s' => I s'

omit [DecidableEq ρ]

theorem Preserves.pure (a : α) : Preserves I (pure a : Op κ ρ ε α) := by
  intro s hs
  rw [yields_pure]
  exact hs

/-- Code in sequence. -/
theorem Preserves.bind {m : Op κ ρ ε β} {f : β → Op κ ρ ε α} (hm : Preserves I m)
    (hf : ∀ b, Preserves I (f b)) : Preserves I (m >>= f) := by
  intro s hs
  rw [yields_bind]
  exact (hm s hs).mono fun b s' hs' => hf b s' hs'

/-- Code that looks at the state and goes on in the same state. -/
theorem Preserves.look_bind {f : κ → Op κ ρ ε α}
    (hf : ∀ s, I s → Yields (f s) s fun _ s' => I s') : Preserves I (look >>= f) := by
  intro s hs
  rw [yields_bind, yields_look]
  exact hf s hs

/-- A single change of the state. -/
theorem Preserves.change {g : κ → κ} (hg : ∀ s, I s → I (g s)) :
    Preserves I (change g : Op κ ρ ε Unit) := by
  intro s hs
  rw [yields_change]
  exact hg s hs

theorem Preserves.acquire (r : ρ) : Preserves I (acquire r : Op κ ρ ε Unit) := by
  intro s hs
  rw [yields_acquire]
  exact hs

theorem Preserves.release (r : ρ) : Preserves I (release r : Op κ ρ ε Unit) := by
  intro s hs
  rw [yields_release]
  exact hs

/-- Either branch. -/
theorem Preserves.ite {c : Prop} [Decidable c] {m n : Op κ ρ ε α} (hm : Preserves I m)
    (hn : Preserves I n) : Preserves I (if c then m else n) := by
  split
  · exact hm
  · exact hn

end Preserves

/-! ## Code that moves by steps

What code can do to an observation `f` of the state, said by a relation `r`: from what it was the
code takes it to what it is in steps of `r`.  Every invariant of the steps is one of the code. -/

section Moves

variable {τ : Type} {r : τ → τ → Prop} {f : κ → τ}

/-- Whenever the code returns, steps of `r` have taken the observation there. -/
def Moves (r : τ → τ → Prop) (f : κ → τ) (m : Op κ ρ ε α) : Prop :=
  ∀ s, Yields m s fun _ s' => Relation.ReflTransGen r (f s) (f s')

/-- Code that leaves the observation alone. -/
theorem Balanced.moves {m : Op κ ρ ε α} (hm : Balanced f m) : Moves r f m := by
  intro s
  refine (hm.yields s).mono fun _ s' hs' => ?_
  rw [hs']

omit [DecidableEq ρ]

theorem Moves.pure (a : α) : Moves r f (pure a : Op κ ρ ε α) := by
  intro s
  rw [yields_pure]

/-- Code in sequence makes the steps of both parts. -/
theorem Moves.bind {m : Op κ ρ ε β} {g : β → Op κ ρ ε α} (hm : Moves r f m)
    (hg : ∀ b, Moves r f (g b)) : Moves r f (m >>= g) := by
  intro s
  rw [yields_bind]
  exact (hm s).mono fun b s' hs' => (hg b s').mono fun _ _ hs'' => hs'.trans hs''

/-- Code that looks at the state and goes on in the same state. -/
theorem Moves.look_bind {g : κ → Op κ ρ ε α}
    (hg : ∀ s, Yields (g s) s fun _ s' => Relation.ReflTransGen r (f s) (f s')) :
    Moves r f (look >>= g) := by
  intro s
  rw [yields_bind, yields_look]
  exact hg s

/-- A single change of the state is one step. -/
theorem Moves.change {g : κ → κ} (hg : ∀ s, r (f s) (f (g s))) :
    Moves r f (change g : Op κ ρ ε Unit) := by
  intro s
  rw [yields_change]
  exact .single (hg s)

theorem Moves.acquire (q : ρ) : Moves r f (acquire q : Op κ ρ ε Unit) := by
  intro s
  rw [yields_acquire]

theorem Moves.release (q : ρ) : Moves r f (release q : Op κ ρ ε Unit) := by
  intro s
  rw [yields_release]

/-- Either branch. -/
theorem Moves.ite {c : Prop} [Decidable c] {m n : Op κ ρ ε α} (hm : Moves r f m)
    (hn : Moves r f n) : Moves r f (if c then m else n) := by
  split
  · exact hm
  · exact hn

/-- **The invariant rule.** -/
theorem Moves.preserves {I : τ → Prop} (hI : ∀ k k', r k k' → I k → I k') {m : Op κ ρ ε α}
    (hm : Moves r f m) : Preserves (fun s => I (f s)) m := by
  intro s hs
  have hsteps : ∀ {k : τ}, Relation.ReflTransGen r (f s) k → I k := by
    intro k hk
    induction hk with
    | refl => exact hs
    | tail _ hstep ih => exact hI _ _ hstep ih
  exact (hm s).mono fun _ _ hs' => hsteps hs'

end Moves

/-! ## Code of a part

Code written for a part of a larger state, run on the whole: `part` is the part it works on,
`put` stores it back, `name` is what its resources are called there. -/

section Zoom

variable {κ' ρ' : Type} {part : κ' → κ} {put : κ → κ' → κ'} {name : ρ → ρ'}

/-- Run the code of a part on the whole. -/
def zoom (part : κ' → κ) (put : κ → κ' → κ') (name : ρ → ρ') (m : Op κ ρ ε α) :
    Op κ' ρ' ε α := fun s =>
  match m (part s) with
  | .done a k es => .done a (put k s) (es.map (Event.map name))
  | .fault e es => .fault e (es.map (Event.map name))

/-- `put` stores the part that `part` reads. -/
structure IsPart (part : κ' → κ) (put : κ → κ' → κ') : Prop where
  part_put : ∀ k s, part (put k s) = k
  put_part : ∀ s, put (part s) s = s
  put_put : ∀ k l s, put l (put k s) = put l s

section Laws

variable (h : IsPart part put)
include h

omit [DecidableEq ρ] in
theorem zoom_pure (a : α) :
    zoom part put name (pure a : Op κ ρ ε α) = (pure a : Op κ' ρ' ε α) := by
  funext s
  show Outcome.done a (put (part s) s) [] = Outcome.done a s []
  rw [h.put_part]

omit [DecidableEq ρ] in
/-- Looking at the part. -/
theorem zoom_look :
    zoom part put name (look : Op κ ρ ε κ) =
      (do
        let s ← look
        pure (part s) : Op κ' ρ' ε κ) := by
  funext s
  show Outcome.done (part s) (put (part s) s) [] = Outcome.done (part s) s []
  rw [h.put_part]

omit [DecidableEq ρ] in
/-- A resource of the part under its name in the whole. -/
theorem zoom_acquire (r : ρ) :
    zoom part put name (acquire r : Op κ ρ ε Unit) = (acquire (name r) : Op κ' ρ' ε Unit) := by
  funext s
  show Outcome.done () (put (part s) s) _ = Outcome.done () s _
  rw [h.put_part]
  rfl

omit [DecidableEq ρ] in
theorem zoom_release (r : ρ) :
    zoom part put name (release r : Op κ ρ ε Unit) = (release (name r) : Op κ' ρ' ε Unit) := by
  funext s
  show Outcome.done () (put (part s) s) _ = Outcome.done () s _
  rw [h.put_part]
  rfl

omit [DecidableEq ρ] in
/-- The code of a sequence is the sequence of the codes. -/
theorem zoom_bind (m : Op κ ρ ε β) (f : β → Op κ ρ ε α) :
    zoom part put name (m >>= f) =
      (zoom part put name m >>= fun b => zoom part put name (f b)) := by
  funext s
  cases hm : m (part s) with
  | fault e es =>
      have hwhole : zoom part put name m s = .fault e (es.map (Event.map name)) := by
        simp only [zoom, hm]
      rw [bind_of_fault hwhole]
      simp only [zoom, bind_of_fault hm]
  | done b k es =>
      have hwhole : zoom part put name m s = .done b (put k s) (es.map (Event.map name)) := by
        simp only [zoom, hm]
      rw [bind_of_done hwhole]
      simp only [zoom, bind_of_done hm, h.part_put]
      cases f b k with
      | done a l fs => simp only [Outcome.after, List.map_append, h.put_put]
      | fault e fs => simp only [Outcome.after, List.map_append]

end Laws

/-- **The frame rule for a part.**  What the code ensures of its part it ensures of the whole,
whatever else is held there. -/
theorem Ensures.zoom [DecidableEq ρ'] (hname : Function.Injective name) {m : Op κ ρ ε α} {s : κ'}
    {held : Multiset ρ} {Q : α → κ → Multiset ρ → Prop} (h : Ensures m (part s) held Q)
    (rest : Multiset ρ') :
    Ensures (zoom part put name m) s (held.map name + rest) fun a s' held' =>
      ∃ k h', Q a k h' ∧ s' = put k s ∧ held' = h'.map name + rest := by
  unfold Ensures Ledger.zoom
  cases hm : m (part s) with
  | done a k es =>
      obtain ⟨held', hreplay, hQ⟩ := h.done hm
      exact ⟨_, replay_frame rest (replay_map hname hreplay), k, held', hQ, rfl, rfl⟩
  | fault e es =>
      obtain ⟨held', hreplay⟩ := h.fault hm
      exact ⟨_, replay_frame rest (replay_map hname hreplay)⟩

omit [DecidableEq ρ]

/-- Code of a part returns on the whole if it does on the part. -/
@[simp] theorem returns_zoom (m : Op κ ρ ε α) {s : κ'} {P : α → κ' → Prop} :
    Returns (zoom part put name m) s P ↔ Returns m (part s) fun a k => P a (put k s) := by
  constructor
  · rintro ⟨a, s', es, hm, hP⟩
    unfold zoom at hm
    cases hmk : m (part s) with
    | fault e fs =>
        rw [hmk] at hm
        cases hm
    | done b k fs =>
        rw [hmk] at hm
        cases hm
        exact ⟨a, k, fs, hmk, hP⟩
  · rintro ⟨a, k, es, hm, hP⟩
    refine ⟨a, put k s, es.map (Event.map name), ?_, hP⟩
    simp only [zoom, hm]

/-- Everything else in the whole is as it was. -/
@[simp] theorem yields_zoom (m : Op κ ρ ε α) {s : κ'} {P : α → κ' → Prop} :
    Yields (zoom part put name m) s P ↔ Yields m (part s) fun a k => P a (put k s) := by
  constructor
  · intro h a k es hm
    refine h a (put k s) (es.map (Event.map name)) ?_
    simp only [zoom, hm]
  · intro h a s' es hm
    unfold zoom at hm
    cases hmk : m (part s) with
    | fault e fs =>
        rw [hmk] at hm
        cases hm
    | done b k fs =>
        rw [hmk] at hm
        cases hm
        exact h a k fs hmk

end Zoom

end Ledger
