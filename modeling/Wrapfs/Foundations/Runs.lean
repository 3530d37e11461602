import Mathlib.Data.List.Basic
import Mathlib.Tactic.Common

/-!
# Runs of a fallible step function

A machine is given by `step : σ → α → Except ε σ`: an action either takes the state to the next
one or stops the machine with a fault.  A run is the monadic left fold of `step` over a list of
actions.

Two things are packaged once here and used by every run argument downstream.

* `Along step P s as`: *every action of the run meets `P` in the state it is taken in*.
  Conditions on a whole run are always of this form, because what a step may do depends on the
  state the earlier steps left behind.
* the induction principles: an invariant that each step keeps holds at the end
  (`Along.invariant`), a condition that implies another one step at a time implies it along the
  run (`Along.transfer`), and a step that is matched by an abstract machine makes a run matched by
  one (`Along.simulation`).

## Exactness

A sufficient condition on the steps gives an invariant by the rules above.  A condition that is
also *necessary* needs more care, because a run may leave an invariant and come back to it, so
that the state at the end says nothing about the steps.  `forall_prefix_iff_along` is the form
that is true: if a step keeps the invariant exactly when it meets `P`, then all steps meet `P`
exactly when the invariant holds after *every prefix*.  It has a second invariant, `J`, for what
holds whether or not `I` does, and admissibility `Q` for what is asked of the actions beforehand.

## Answers

Some machines are judged by what they answer and not by their state.  For those whose every action
returns, `answers` is the list of answers and `answers_refine` and `answers_eq_iff` say when two
machines cannot be told apart; the second is exact, and needs no prefixes, since an answer that
differs stays in the list.  `replies` is the same for machines that may also stop.
-/

namespace Runs

universe u v w

variable {σ : Type u} {α : Type v} {ε : Type u}

/-- The run of `step` over a list of actions; a fault ends it. -/
def run (step : σ → α → Except ε σ) (s : σ) (as : List α) : Except ε σ :=
  as.foldlM step s

/-- Every action of the run meets `P` in the state it is taken in.  After a
fault there are no further states, so nothing more is asked. -/
def Along (step : σ → α → Except ε σ) (P : σ → α → Prop) : σ → List α → Prop
  | _, [] => True
  | s, a :: as => P s a ∧ ∀ s', step s a = .ok s' → Along step P s' as

variable {step : σ → α → Except ε σ} {P Q : σ → α → Prop} {I : σ → Prop}

@[simp] theorem run_nil (s : σ) : run step s [] = .ok s := rfl

/-- A first step that returns. -/
theorem run_cons_of_ok {s t : σ} {a : α} (h : step s a = .ok t) (as : List α) :
    run step s (a :: as) = run step t as := by
  rw [run, List.foldlM_cons, h]
  rfl

/-- A first step that stops the machine. -/
theorem run_cons_of_error {s : σ} {a : α} {e : ε} (h : step s a = .error e)
    (as : List α) : run step s (a :: as) = .error e := by
  rw [run, List.foldlM_cons, h]
  rfl

/-- A completed run of `a :: as` is a first step followed by a run of `as`. -/
theorem run_cons_eq_ok {s s' : σ} {a : α} {as : List α} :
    run step s (a :: as) = .ok s' ↔
      ∃ t, step s a = .ok t ∧ run step t as = .ok s' := by
  constructor
  · intro h
    cases hstep : step s a with
    | error e =>
        rw [run_cons_of_error hstep] at h
        cases h
    | ok t => exact ⟨t, rfl, by rwa [run_cons_of_ok hstep] at h⟩
  · rintro ⟨t, ht, h⟩
    rwa [run_cons_of_ok ht]

@[simp] theorem along_nil (s : σ) : Along step P s [] := trivial

/-- **The invariant rule.**  An invariant kept by every step that meets `P`
holds at the end of a run all of whose steps meet `P`. -/
theorem Along.invariant
    (hstep : ∀ s a s', P s a → I s → step s a = .ok s' → I s') :
    ∀ {as : List α} {s s' : σ}, Along step P s as → I s →
      run step s as = .ok s' → I s'
  | [], s, s', _, hI, h => by
      cases h
      exact hI
  | a :: as, s, s', halong, hI, h => by
      obtain ⟨t, ht, hrest⟩ := run_cons_eq_ok.mp h
      exact Along.invariant hstep (halong.2 t ht) (hstep s a t halong.1 hI ht) hrest

/-- A condition met by every action in every state is met along every run. -/
theorem along_of_forall (h : ∀ s a, P s a) : ∀ (as : List α) (s : σ), Along step P s as
  | [], _ => trivial
  | a :: as, s => ⟨h s a, fun t _ => along_of_forall h as t⟩

/-- An invariant kept by every step holds at the end of every run. -/
theorem run_invariant (hstep : ∀ s a s', I s → step s a = .ok s' → I s') {as : List α}
    {s s' : σ} (hI : I s) (hrun : run step s as = .ok s') : I s' :=
  Along.invariant (P := fun _ _ => True) (fun s a s' _ => hstep s a s')
    (along_of_forall (fun _ _ => trivial) as s) hI hrun

/-- **The transfer rule.**  If, under an invariant the steps keep, `P` implies
`Q`, then a run all of whose steps meet `P` is one all of whose steps meet
`Q`. -/
theorem Along.transfer
    (hstep : ∀ s a s', P s a → I s → step s a = .ok s' → I s')
    (himp : ∀ s a, I s → P s a → Q s a) :
    ∀ {as : List α} {s : σ}, I s → Along step P s as → Along step Q s as
  | [], _, _, _ => trivial
  | a :: _, s, hI, halong =>
      ⟨himp s a hI halong.1, fun t ht =>
        Along.transfer hstep himp (hstep s a t halong.1 hI ht) (halong.2 t ht)⟩

/-- **The simulation rule.**  If every step that meets `P` is matched by a step of
an abstract machine, so is a run all of whose steps meet `P`. -/
theorem Along.simulation {τ : Type w} {R : σ → τ → Prop} {abs : τ → α → τ}
    (hstep : ∀ s t a, R s t → P s a → ∃ s', step s a = .ok s' ∧ R s' (abs t a)) :
    ∀ {as : List α} {s : σ} {t : τ}, R s t → Along step P s as →
      ∃ s', run step s as = .ok s' ∧ R s' (as.foldl abs t)
  | [], s, _, hR, _ => ⟨s, rfl, hR⟩
  | a :: as, s, t, hR, halong => by
      obtain ⟨s₁, hs₁, hR₁⟩ := hstep s t a hR halong.1
      obtain ⟨s', hrun, hR'⟩ := Along.simulation hstep hR₁ (halong.2 s₁ hs₁)
      exact ⟨s', by rwa [run_cons_of_ok hs₁], hR'⟩

/-- **Exactness over prefixes.**  Suppose that, in the presence of an invariant `J` that
admissible actions keep, an admissible action taken where `I` holds returns and re-establishes
`I` *exactly when* it meets `P`.  Then, for an admissible run, every prefix of it returns with
`I` if and only if every step meets `P`. -/
theorem forall_prefix_iff_along {J : σ → Prop}
    (hkeep : ∀ s a s', J s → Q s a → step s a = .ok s' → J s')
    (hstep : ∀ s a, J s → I s → Q s a → ((∃ s', step s a = .ok s' ∧ I s') ↔ P s a)) :
    ∀ {as : List α} {s : σ}, J s → I s → Along step Q s as →
      ((∀ pre, pre <+: as → ∃ s', run step s pre = .ok s' ∧ I s') ↔
        Along step P s as)
  | [], s, _, hI, _ => by
      refine ⟨fun _ => trivial, fun _ pre hpre => ?_⟩
      rw [List.prefix_nil.mp hpre]
      exact ⟨s, rfl, hI⟩
  | a :: as, s, hJ, hI, hadm => by
      have hrest : ∀ {t}, step s a = .ok t → I t → ((∀ pre, pre <+: as →
          ∃ s', run step t pre = .ok s' ∧ I s') ↔ Along step P t as) :=
        fun ht hIt =>
          forall_prefix_iff_along hkeep hstep (hkeep s a _ hJ hadm.1 ht) hIt (hadm.2 _ ht)
      constructor
      · intro hall
        obtain ⟨t, ht, hIt⟩ : ∃ t, step s a = .ok t ∧ I t := by
          obtain ⟨t, hrun, hIt⟩ := hall [a] (by simp)
          obtain ⟨t', ht', hrun'⟩ := run_cons_eq_ok.mp hrun
          cases hrun'
          exact ⟨t, ht', hIt⟩
        refine ⟨(hstep s a hJ hI hadm.1).mp ⟨t, ht, hIt⟩, fun t' ht' => ?_⟩
        obtain rfl : t = t' := Except.ok.inj (ht.symm.trans ht')
        refine (hrest ht hIt).mp fun pre hpre => ?_
        obtain ⟨s', hrun, hIs'⟩ := hall (a :: pre) (List.cons_prefix_cons.mpr ⟨rfl, hpre⟩)
        exact ⟨s', by rwa [run_cons_of_ok ht] at hrun, hIs'⟩
      · rintro ⟨hP, halong⟩ pre hpre
        obtain ⟨t, ht, hIt⟩ := (hstep s a hJ hI hadm.1).mpr hP
        cases pre with
        | nil => exact ⟨s, rfl, hI⟩
        | cons b pre =>
            obtain ⟨rfl, htail⟩ := List.cons_prefix_cons.mp hpre
            obtain ⟨s', hrun, hIs'⟩ := (hrest ht hIt).mpr (halong t ht) pre htail
            exact ⟨s', by rwa [run_cons_of_ok ht], hIs'⟩

/-- The steps of a completed run do not fault. -/
theorem along_of_run : ∀ {as : List α} {s s' : σ}, run step s as = .ok s' →
    Along step (fun s a => ∃ s', step s a = .ok s') s as
  | [], _, _, _ => trivial
  | a :: as, s, s', h => by
      obtain ⟨t, ht, hrest⟩ := run_cons_eq_ok.mp h
      refine ⟨⟨t, ht⟩, fun t' ht' => ?_⟩
      obtain rfl : t = t' := Except.ok.inj (ht.symm.trans ht')
      exact along_of_run hrest

/-- Exactness over the prefixes of a completed run: there every action that is taken is
admissible. -/
theorem forall_prefix_iff_of_run (hstep : ∀ s a s', I s → step s a = .ok s' → (I s' ↔ P s a))
    {as : List α} {s s' : σ} (hI : I s) (hrun : run step s as = .ok s') :
    (∀ pre, pre <+: as → ∃ t, run step s pre = .ok t ∧ I t) ↔ Along step P s as := by
  refine forall_prefix_iff_along (J := fun _ => True) (fun _ _ _ _ _ _ => trivial)
    (fun s a _ hI hok => ?_) trivial hI (along_of_run hrun)
  obtain ⟨t, ht⟩ := hok
  refine ⟨fun ⟨t', ht', hIt'⟩ => (hstep s a t' hI ht').mp hIt', fun hP => ?_⟩
  exact ⟨t, ht, (hstep s a t hI ht).mpr hP⟩

/-! ## Machines that answer

A machine whose every action returns: `step : σ → α → ω × σ` gives an answer and
the next state. -/

section Answers

variable {τ ω : Type*} {call : σ → α → ω × σ} {abs : τ → α → ω × τ}

/-- The answers of a sequence of actions, and the state they lead to. -/
def answers (call : σ → α → ω × σ) : σ → List α → List ω × σ
  | s, [] => ([], s)
  | s, a :: as =>
      let rest := answers call (call s a).2 as
      ((call s a).1 :: rest.1, rest.2)

/-- Every action of the sequence meets `P` in the state it is taken in. -/
def AnswersAlong (call : σ → α → ω × σ) (P : σ → α → Prop) : σ → List α → Prop
  | _, [] => True
  | s, a :: as => P s a ∧ AnswersAlong call P (call s a).2 as

/-- **Refinement.**  If related states give equal answers to every action that meets
`P`, and stay related, then whole sequences give equal answers and lead to related
states. -/
theorem answers_refine {R : σ → τ → Prop}
    (hcall : ∀ s t a, R s t → P s a →
      (call s a).1 = (abs t a).1 ∧ R (call s a).2 (abs t a).2) :
    ∀ {as : List α} {s : σ} {t : τ}, R s t → AnswersAlong call P s as →
      (answers call s as).1 = (answers abs t as).1 ∧
        R (answers call s as).2 (answers abs t as).2
  | [], _, _, hR, _ => ⟨rfl, hR⟩
  | a :: as, s, t, hR, halong => by
      obtain ⟨hans, hR'⟩ := hcall s t a hR halong.1
      obtain ⟨hrest, hfinal⟩ := answers_refine hcall hR' halong.2
      refine ⟨?_, hfinal⟩
      show (call s a).1 :: _ = (abs t a).1 :: _
      rw [hans, hrest]

/-- **Exact refinement.**  If related states give equal answers to an action exactly when it
meets `P`, and stay related then, whole sequences give equal answers exactly when every action
meets `P`. -/
theorem answers_eq_iff {R : σ → τ → Prop}
    (hcall : ∀ s t a, R s t → ((call s a).1 = (abs t a).1 ↔ P s a) ∧
      (P s a → R (call s a).2 (abs t a).2)) :
    ∀ {as : List α} {s : σ} {t : τ}, R s t →
      ((answers call s as).1 = (answers abs t as).1 ↔ AnswersAlong call P s as)
  | [], _, _, _ => iff_of_true rfl trivial
  | a :: as, s, t, hR => by
      obtain ⟨hiff, hnext⟩ := hcall s t a hR
      show (call s a).1 :: _ = (abs t a).1 :: _ ↔ P s a ∧ _
      rw [List.cons.injEq, hiff]
      exact and_congr_right fun hP => answers_eq_iff hcall (hnext hP)

end Answers

/-! ## Machines that answer and may stop

The two together: an action answers and takes the state to the next one, or stops the
machine. -/

section Replies

variable {τ ω : Type*} {call : σ → α → Except ε (ω × σ)} {abs : τ → α → ω × τ}
  {Q : τ → α → Prop} {R : σ → τ → Prop}

/-- The answers of a sequence of actions, and the state they lead to; a fault ends it. -/
def replies (call : σ → α → Except ε (ω × σ)) : σ → List α → Except ε (List ω × σ)
  | s, [] => .ok ([], s)
  | s, a :: as =>
      match call s a with
      | .error e => .error e
      | .ok (r, t) =>
          match replies call t as with
          | .error e => .error e
          | .ok (rs, s') => .ok (r :: rs, s')

/-- A first answer, and the rest. -/
theorem replies_cons_of_ok {s t s' : σ} {a : α} {as : List α} {r : ω} {rs : List ω}
    (h : call s a = .ok (r, t)) (hrest : replies call t as = .ok (rs, s')) :
    replies call s (a :: as) = .ok (r :: rs, s') := by
  simp only [replies, h, hrest]

/-- **Refinement of a machine that always answers.**  If every action that the abstract machine
admits is carried out, with the abstract answer, and leads to related states, then a sequence of
actions that the abstract machine admits one after the other is carried out with its answers. -/
theorem replies_refine
    (hcall : ∀ s t a, R s t → Q t a →
      ∃ s', call s a = .ok ((abs t a).1, s') ∧ R s' (abs t a).2) :
    ∀ {as : List α} {s : σ} {t : τ}, R s t → AnswersAlong abs Q t as →
      ∃ s', replies call s as = .ok ((answers abs t as).1, s') ∧ R s' (answers abs t as).2
  | [], s, _, hR, _ => ⟨s, rfl, hR⟩
  | a :: as, s, t, hR, halong => by
      obtain ⟨s₁, hs₁, hR₁⟩ := hcall s t a hR halong.1
      obtain ⟨s', hrest, hR'⟩ := replies_refine hcall hR₁ halong.2
      exact ⟨s', replies_cons_of_ok hs₁ hrest, hR'⟩

end Replies

end Runs
