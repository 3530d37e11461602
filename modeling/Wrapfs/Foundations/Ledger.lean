import Mathlib.Algebra.BigOperators.Group.Finset.Piecewise
import Mathlib.Algebra.Order.Group.Multiset
import Mathlib.Data.Multiset.MapFold
import Mathlib.Tactic.Abel

/-!
# Resource ledgers

A piece of code that takes and gives back resources leaves a trace of `acquire` and `release`
events. `replay` runs such a trace against the multiset of resources held at its start: acquiring
adds one, releasing removes one, and releasing something that is not held is an error (`none`).
So a single equation `replay held es = some held'` says both that nothing was given back that had
not been taken, and what is still outstanding afterwards.

A multiset and not a set, because a resource may be held several times: a reference count is the
multiplicity of the object in the ledger.

The frame rule `replay_frame` is what makes traces compose: a trace that is in order against a
small ledger is in order against any larger one and leaves the surplus alone.  A trace that is
balanced against the empty ledger is therefore balanced everywhere (`replay_of_balanced`).  The
converse of the frame rule is false, and rightly so: a trace may be in order only because someone
else holds what it gives back.

Two constructions on top are used wherever an object has parts.

* **Renaming.**  `Event.map` gives the resources of a part their names in the whole, and
  `replay_map` keeps the trace in order as long as different resources get different names.
* **Tables.**  `heldBy` is what the entries of a numbered table hold together.  Changing an entry
  exchanges what it holds (`heldBy_update`, stated with sums on both sides, since multisets have
  no honest subtraction), and `count_heldBy` turns a question about multiplicity into one about
  how many entries hold something.
-/

namespace Ledger

variable {ρ : Type*}

/-- One entry of a trace. -/
inductive Event (ρ : Type*) where
  | acquire (r : ρ)
  | release (r : ρ)
  deriving DecidableEq

variable [DecidableEq ρ]

/-- Run a trace against a ledger; `none` when something is released that is not
held. -/
def replay : Multiset ρ → List (Event ρ) → Option (Multiset ρ)
  | held, [] => some held
  | held, .acquire r :: es => replay (r ::ₘ held) es
  | held, .release r :: es => if r ∈ held then replay (held.erase r) es else none

@[simp] theorem replay_nil (held : Multiset ρ) : replay held [] = some held := rfl

@[simp] theorem replay_acquire (held : Multiset ρ) (r : ρ) (es : List (Event ρ)) :
    replay held (.acquire r :: es) = replay (r ::ₘ held) es := rfl

/-- Releasing something that is held, wherever it is in the ledger. -/
theorem replay_release_of_mem {held : Multiset ρ} {r : ρ} (h : r ∈ held)
    (es : List (Event ρ)) :
    replay held (.release r :: es) = replay (held.erase r) es := by
  rw [replay, if_pos h]

/-- Releasing what was acquired last. -/
@[simp] theorem replay_release_head (held : Multiset ρ) (r : ρ)
    (es : List (Event ρ)) :
    replay (r ::ₘ held) (.release r :: es) = replay held es := by
  rw [replay_release_of_mem (Multiset.mem_cons_self r held), Multiset.erase_cons_head]

/-- Traces compose. -/
theorem replay_append {held mid : Multiset ρ} {es fs : List (Event ρ)}
    (h : replay held es = some mid) : replay held (es ++ fs) = replay mid fs := by
  induction es generalizing held with
  | nil =>
      cases h
      rfl
  | cons e es ih =>
      cases e with
      | acquire r => exact ih h
      | release r =>
          by_cases hr : r ∈ held
          · rw [replay_release_of_mem hr] at h
            rw [List.cons_append, replay_release_of_mem hr]
            exact ih h
          · rw [replay, if_neg hr] at h
            cases h

/-- A trace is in order if its parts are, one after the other. -/
theorem replay_append_eq_some {held held' : Multiset ρ} {es fs : List (Event ρ)} :
    replay held (es ++ fs) = some held' ↔
      ∃ mid, replay held es = some mid ∧ replay mid fs = some held' := by
  constructor
  · intro h
    induction es generalizing held with
    | nil => exact ⟨held, rfl, h⟩
    | cons e es ih =>
        cases e with
        | acquire r => exact ih h
        | release r =>
            by_cases hr : r ∈ held
            · rw [List.cons_append, replay_release_of_mem hr] at h
              rw [replay_release_of_mem hr]
              exact ih h
            · rw [List.cons_append, replay, if_neg hr] at h
              cases h
  · rintro ⟨mid, hes, hfs⟩
    rw [replay_append hes, hfs]

/-- **The frame rule.**  Resources the trace does not touch stay where they
are. -/
theorem replay_frame {held held' : Multiset ρ} (extra : Multiset ρ)
    {es : List (Event ρ)} (h : replay held es = some held') :
    replay (held + extra) es = some (held' + extra) := by
  induction es generalizing held with
  | nil =>
      cases h
      rfl
  | cons e es ih =>
      cases e with
      | acquire r =>
          rw [replay_acquire, ← Multiset.cons_add]
          exact ih h
      | release r =>
          by_cases hr : r ∈ held
          · rw [replay_release_of_mem hr] at h
            rw [replay_release_of_mem (Multiset.mem_add.mpr (Or.inl hr)),
              Multiset.erase_add_left_pos extra hr]
            exact ih h
          · rw [replay, if_neg hr] at h
            cases h

/-- A trace balanced on its own is balanced in every context. -/
theorem replay_of_balanced {es : List (Event ρ)} (h : replay 0 es = some 0)
    (held : Multiset ρ) : replay held es = some held := by
  simpa using replay_frame held h

/-! ## Renaming -/

section Rename

variable {ρ' : Type*}

omit [DecidableEq ρ] in
/-- The same entry under another name of its resource. -/
def Event.map (name : ρ → ρ') : Event ρ → Event ρ'
  | .acquire r => .acquire (name r)
  | .release r => .release (name r)

/-- A trace stays in order when its resources are given other, different names. -/
theorem replay_map [DecidableEq ρ'] {name : ρ → ρ'} (hname : Function.Injective name)
    {held held' : Multiset ρ} {es : List (Event ρ)} (h : replay held es = some held') :
    replay (held.map name) (es.map (Event.map name)) = some (held'.map name) := by
  induction es generalizing held with
  | nil =>
      obtain rfl := Option.some.inj h
      rfl
  | cons e es ih =>
      cases e with
      | acquire r =>
          have hrest := ih h
          rwa [Multiset.map_cons] at hrest
      | release r =>
          by_cases hr : r ∈ held
          · rw [replay_release_of_mem hr] at h
            have hrest := ih h
            rw [Multiset.map_erase name hname] at hrest
            rw [List.map_cons, Event.map,
              replay_release_of_mem (Multiset.mem_map_of_mem name hr)]
            exact hrest
          · rw [replay, if_neg hr] at h
            cases h

end Rename

/-! ## Tables

What the entries of a numbered table hold together, when entry `i` with contents `x` holds
`holds i x`. -/

section Table

variable {α : Type*} (holds : ℕ → α → Multiset ρ)

/-- What the entries below `n` hold. -/
def heldBy (table : ℕ → α) (n : ℕ) : Multiset ρ :=
  ∑ i ∈ Finset.range n, holds i (table i)

omit [DecidableEq ρ] in
/-- Changing one entry exchanges what it holds. -/
theorem heldBy_update (table : ℕ → α) {n i : ℕ} (hi : i < n) (x : α) :
    heldBy holds (Function.update table i x) n + holds i (table i) =
      heldBy holds table n + holds i x := by
  have hmem : i ∈ Finset.range n := Finset.mem_range.mpr hi
  have hrest : ∑ j ∈ (Finset.range n).erase i, holds j (Function.update table i x j) =
      ∑ j ∈ (Finset.range n).erase i, holds j (table j) := by
    refine Finset.sum_congr rfl fun j hj => ?_
    rw [Function.update_of_ne (Finset.ne_of_mem_erase hj)]
  rw [heldBy, heldBy, ← Finset.add_sum_erase _ _ hmem,
    ← Finset.add_sum_erase (Finset.range n) _ hmem, hrest, Function.update_self]
  abel

omit [DecidableEq ρ] in
/-- An entry added at the end. -/
theorem heldBy_succ (table : ℕ → α) (n : ℕ) (x : α) :
    heldBy holds (Function.update table n x) (n + 1) = heldBy holds table n + holds n x := by
  rw [heldBy, Finset.sum_range_succ, Function.update_self]
  congr 1
  refine Finset.sum_congr rfl fun j hj => ?_
  rw [Function.update_of_ne (Nat.ne_of_lt (Finset.mem_range.mp hj))]

omit [DecidableEq ρ] in
/-- What is held is held by some entry. -/
theorem mem_heldBy {table : ℕ → α} {n : ℕ} {r : ρ} :
    r ∈ heldBy holds table n ↔ ∃ i < n, r ∈ holds i (table i) := by
  simp [heldBy, Multiset.mem_sum]

/-- A resource that each entry holds at most once is held once by each entry that holds it. -/
theorem count_heldBy {table : ℕ → α} {n : ℕ} {r : ρ} {p : ℕ → Prop} [DecidablePred p]
    (hcount : ∀ i < n, (holds i (table i)).count r = if p i then 1 else 0) :
    (heldBy holds table n).count r = ((Finset.range n).filter p).card := by
  rw [heldBy, Multiset.count_sum', Finset.card_filter]
  exact Finset.sum_congr rfl fun i hi => hcount i (Finset.mem_range.mp hi)

end Table

end Ledger
