import Wrapfs.Namespace.Iget

/-!
# References on inodes

An upper inode holds one reference on its lower inode: `wrapfs_iget` takes it with `igrab`,
`wrapfs_evict_inode` gives it back.  An upper inode is itself held by those who got it from
`wrapfs_iget`: a dentry, or `wrapfs_read_super` until the root dentry takes over.

`refStep` runs the steps of any number of `wrapfs_iget` calls, interleaved, with drops and
evictions as in `Wrapfs.Namespace.Iget`, and what `wrapfs_read_super` does with the root inode.
Every step leaves its `igrab`s and `iput`s on two traces, one for lower and one for upper inodes.

## What is asked

`RefsKept`: replayed as ledgers, the traces are in order — nothing is put that is not held, so
nothing is put twice — and leave exactly one reference on a lower inode for every live upper inode
that has it, and one on an upper inode for every call or caller that refers to it.  And an inode
that is still being set up is being set up by a call in progress.

## The three failures the code does not survive

* `iget5_locked` finds no memory: `wrapfs_iget` puts the lower inode, which it has not grabbed;
* `igrab` fails: the new inode is left in the hash, locked and without a lower inode, and held;
* the root dentry gets no private data: `dput` of the root calls `wrapfs_d_release`, which follows
  the null pointer (had it returned, the label below would have put the root inode a second time).

`refs_kept_iff` says that there are no others: a failing `d_alloc_root` is handled, and so is
every interleaving, even one in which two inodes are made for one lower inode.

## How the proof goes

`refsKept_step_iff` is the step lemma: a step that can be taken returns and keeps the ledgers
exactly when it is none of the failures.  Of the cache it needs only `CacheShape`, which every
step keeps, failing or not: each call's phase fits the inode it refers to, and no inode is set up
by two calls.  This is less than the invariant of `Wrapfs.Namespace.Iget` and needs no condition
on the order of the steps.  `forall_prefix_iff_along` turns the step lemma into the statement
about runs.

What `wrapfs_read_super` does with the root is here one step, `readSuperStep`, on the inodes
alone; with the dentries, the lower path and the other exits it is `readSuperRoot` of
`Wrapfs.Namespace.LifeCycle`, and `readSuperRoot_view` of `Wrapfs.TwoViews` connects the two.
-/

namespace Wrapfs

open Runs Ledger

variable {ι : Type}

/-! ## What is held -/

/-- One reference on the object, if there is one. -/
def refOn {α : Type} : Option α → Multiset α
  | none => 0
  | some x => {x}

@[simp] theorem refOn_none {α : Type} : refOn (none : Option α) = 0 := rfl

@[simp] theorem refOn_some {α : Type} (x : α) : refOn (some x) = {x} := rfl

/-- The lower inodes of the live upper inodes, each as often as an upper inode has it. -/
def InodeHash.lowerInodes (h : InodeHash ι) : Multiset ι :=
  ∑ u ∈ Finset.range h.next, refOn (h.lowerOf u)

/-- The upper inodes that calls and their callers refer to. -/
def Icache.callRefs (s : Icache ι) : Multiset ℕ :=
  s.calls.filterMap fun c => c.phase.refersTo

/-- How many live upper inodes have a lower inode. -/
theorem InodeHash.count_lowerInodes [DecidableEq ι] (h : InodeHash ι) (x : ι) :
    h.lowerInodes.count x =
      ((Finset.range h.next).filter fun u => h.lowerOf u = some x).card := by
  rw [lowerInodes, Multiset.count_sum', Finset.card_filter]
  refine Finset.sum_congr rfl fun u _ => ?_
  cases hu : h.lowerOf u with
  | none => rfl
  | some y => simp [Multiset.count_singleton, eq_comm]

/-- A lower inode is among them when some upper inode has it. -/
theorem InodeHash.mem_lowerInodes {h : InodeHash ι} {x : ι} :
    x ∈ h.lowerInodes ↔ ∃ u < h.next, h.lowerOf u = some x := by
  rw [lowerInodes, Multiset.mem_sum]
  refine exists_congr fun u => ?_
  rw [Finset.mem_range]
  cases hu : h.lowerOf u with
  | none => simp
  | some y => simp [eq_comm]

/-- Replacing one inode exchanges its lower inode. -/
theorem InodeHash.lowerInodes_set {h : InodeHash ι} {u : ℕ} (hu : u < h.next)
    (inode : Option (HashedInode ι)) :
    (h.set u inode).lowerInodes + refOn (h.lowerOf u) =
      h.lowerInodes + refOn (inode.bind HashedInode.lower) := by
  have hmem : u ∈ Finset.range h.next := Finset.mem_range.mpr hu
  have hself : (h.set u inode).lowerOf u = inode.bind HashedInode.lower := by
    rw [lowerOf, set_self]
  have hrest : ∑ v ∈ (Finset.range h.next).erase u,
        refOn ((h.set u inode).lowerOf v) =
      ∑ v ∈ (Finset.range h.next).erase u, refOn (h.lowerOf v) := by
    refine Finset.sum_congr rfl fun v hv => ?_
    rw [h.lowerOf_set_of_ne (Finset.ne_of_mem_erase hv)]
  rw [lowerInodes, lowerInodes, set_next, ← Finset.add_sum_erase _ _ hmem,
    ← Finset.add_sum_erase _ (fun v => refOn (h.lowerOf v)) hmem, hrest, hself]
  abel

/-- A new inode without a lower inode holds nothing. -/
theorem InodeHash.lowerInodes_insertNew (h : InodeHash ι) :
    (h.insertNew ⟨none, true⟩).lowerInodes = h.lowerInodes := by
  rw [lowerInodes, lowerInodes]
  show ∑ u ∈ Finset.range (h.next + 1), _ = _
  rw [Finset.sum_range_succ]
  have hself : (h.insertNew ⟨none, true⟩).lowerOf h.next = none := h.lowerOf_set_self _ _
  rw [hself, refOn_none, add_zero]
  refine Finset.sum_congr rfl fun v hv => ?_
  have hne : v ≠ h.next := Nat.ne_of_lt (Finset.mem_range.mp hv)
  rw [show (h.insertNew ⟨none, true⟩).lowerOf v = h.lowerOf v from h.lowerOf_set_of_ne hne _]

/-- A new call refers to its own inode besides. -/
theorem Icache.callRefs_append (s : Icache ι) (c : IgetCall ι) :
    ({ s with calls := s.calls ++ [c] } : Icache ι).callRefs =
      s.callRefs + refOn c.phase.refersTo := by
  rw [callRefs, callRefs, List.filterMap_append, ← Multiset.coe_add]
  congr 1
  cases hc : c.phase.refersTo with
  | none => simp [hc]
  | some u => simp [hc]

/-- A call that moves on exchanges the inode it refers to. -/
theorem Icache.callRefs_setPhase {s : Icache ι} {i : ℕ} {lower : ι} {p : IgetPhase}
    (hi : s.calls[i]? = some ⟨lower, p⟩) (p' : IgetPhase) :
    (s.setPhase i lower p').callRefs + refOn p.refersTo =
      s.callRefs + refOn p'.refersTo := by
  obtain ⟨hlt, hget⟩ := List.getElem?_eq_some_iff.mp hi
  -- both lists are the other calls and this one
  have hbefore : s.callRefs = refOn p.refersTo +
      ((s.calls.eraseIdx i).filterMap fun c => c.phase.refersTo : List ℕ) := by
    have hperm := List.getElem_cons_eraseIdx_perm hlt
    rw [hget] at hperm
    rw [callRefs, ← Multiset.coe_eq_coe.mpr (hperm.filterMap _), List.filterMap_cons]
    cases hp : p.refersTo with
    | none => simp
    | some u => rfl
  have hafter : (s.setPhase i lower p').callRefs = refOn p'.refersTo +
      ((s.calls.eraseIdx i).filterMap fun c => c.phase.refersTo : List ℕ) := by
    have hperm := List.set_perm_cons_eraseIdx hlt ⟨lower, p'⟩
    rw [callRefs, setPhase, Multiset.coe_eq_coe.mpr (hperm.filterMap _), List.filterMap_cons]
    cases hp : p'.refersTo with
    | none => simp
    | some u => rfl
  rw [hbefore, hafter]
  abel

/-! ## The machine -/

/-- The inode cache, with the references taken and put so far on lower and on upper inodes. -/
structure InodeRefs (ι : Type) where
  cache : Icache ι
  lower : List (Event ι)
  upper : List (Event ℕ)

/-- A super block just set up. -/
def InodeRefs.empty : InodeRefs ι := ⟨.empty, [], []⟩

/-- The steps: those of `wrapfs_iget`, drops and evictions, and the part of
`wrapfs_read_super` that follows its `wrapfs_iget`, with the answers of `d_alloc_root` and of
the allocation of the root dentry's private data. -/
inductive RefAction (ι : Type) where
  | iget (a : IgetAction ι)
  | readSuper (call : ℕ) (allocRoot privateData : Bool)

variable [DecidableEq ι]

/-- The references a step takes and puts on lower inodes. -/
def igetLowerRefs (s : Icache ι) : IgetAction ι → List (Event ι)
  | .iget5 lower alloc =>
      match findInode s.toInodeHash lower with
      | some _ => []
      -- `iput(lower_inode)` on the way out
      | none => if alloc then [] else [.release lower]
  | .setLower i igrab =>
      match s.calls[i]? with
      | some ⟨lower, .inserted _⟩ => if igrab then [.acquire lower] else []
      | _ => []
  | .evict u =>
      match s.lowerOf u with
      | some lower => [.release lower]
      | none => []
  | _ => []

/-- The references a step takes and puts on upper inodes: `iget5_locked` returns an inode held,
found or new. -/
def igetUpperRefs (s : Icache ι) : IgetAction ι → List (Event ℕ)
  | .iget5 lower alloc =>
      match findInode s.toInodeHash lower with
      | some u => [.acquire u]
      | none => if alloc then [.acquire s.next] else []
  | .drop i =>
      match s.calls[i]? with
      | some ⟨_, .returned u⟩ => [.release u]
      | _ => []
  | _ => []

/-- `wrapfs_read_super` once `wrapfs_iget` has returned the root inode. -/
def readSuperStep (s : InodeRefs ι) (i : ℕ) (allocRoot privateData : Bool) :
    Except Fault (InodeRefs ι) :=
  match s.cache.calls[i]? with
  | some ⟨lower, .returned u⟩ =>
      if allocRoot then
        -- the root dentry has taken over the reference
        if privateData then .ok s
        -- `out_freeroot`: `dput` calls `wrapfs_d_release`, and `d_fsdata` is NULL
        else .error .badPointer
      -- `out_iput`
      else .ok ⟨s.cache.setPhase i lower .dropped, s.lower, s.upper ++ [.release u]⟩
  | _ => .error .blocked

/-- One step. -/
def refStep (s : InodeRefs ι) : RefAction ι → Except Fault (InodeRefs ι)
  | .iget a =>
      match igetStep s.cache a with
      | .error fault => .error fault
      | .ok cache =>
          .ok ⟨cache, s.lower ++ igetLowerRefs s.cache a, s.upper ++ igetUpperRefs s.cache a⟩
  | .readSuper i allocRoot privateData => readSuperStep s i allocRoot privateData

/-- The step can be taken: the call it belongs to has come that far. -/
def RefEnabled (s : InodeRefs ι) (a : RefAction ι) : Prop := refStep s a ≠ .error .blocked

/-! ## The requirement -/

/-- The inode a call is setting up. -/
def IgetPhase.building : IgetPhase → Option ℕ
  | .inserted u => some u
  | .filled u => some u
  | _ => none

/-- A call refers to the inode it is setting up. -/
theorem IgetPhase.refersTo_of_building {p : IgetPhase} {u : ℕ} (h : p.building = some u) :
    p.refersTo = some u := by
  cases p with
  | inserted v => exact h
  | filled v => exact h
  | waiting v => cases h
  | returned v => cases h
  | failed e => cases h
  | dropped => cases h

/-- The ledgers are in order and account for every live inode and every call, and an inode that
is not complete is being set up by a call in progress. -/
structure RefsKept (s : InodeRefs ι) : Prop where
  lower : replay 0 s.lower = some s.cache.lowerInodes
  upper : replay 0 s.upper = some s.cache.callRefs
  complete : ∀ u inode, s.cache.inodes u = some inode →
    inode.isNew = true ∨ inode.lower = none →
    ∃ (i : ℕ) (c : IgetCall ι), s.cache.calls[i]? = some c ∧ c.phase.building = some u

/-- None of the three failures happens. -/
def NoBadFailure (s : InodeRefs ι) : RefAction ι → Prop
  | .iget (.iget5 lower alloc) => alloc = true ∨ findInode s.cache.toInodeHash lower ≠ none
  | .iget (.setLower _ igrab) => igrab = true
  | .readSuper _ allocRoot privateData => allocRoot = true → privateData = true
  | _ => True

/-! ## The shape of the cache

What every step keeps, failing or not. -/

/-- The phase of a call fits the inode it refers to. -/
def PhaseFits (h : InodeHash ι) (lower : ι) : IgetPhase → Prop
  | .inserted u => h.inodes u = some ⟨none, true⟩
  | .filled u => h.inodes u = some ⟨some lower, true⟩
  | .waiting u => h.inodes u ≠ none
  | .returned u => h.inodes u ≠ none
  | .failed _ => True
  | .dropped => True

/-- Numbers are given away in order, each call's phase fits its inode, and no inode is set up by
two calls. -/
structure CacheShape (s : Icache ι) : Prop where
  fresh : ∀ u, s.next ≤ u → s.inodes u = none
  fits : ∀ {i : ℕ} {c : IgetCall ι}, s.calls[i]? = some c →
    PhaseFits s.toInodeHash c.lower c.phase
  apart : ∀ {i j : ℕ} {c d : IgetCall ι} {u : ℕ}, s.calls[i]? = some c →
    s.calls[j]? = some d → c.phase.building = some u → d.phase.building = some u → i = j

section Shape

variable {s s' : Icache ι}

omit [DecidableEq ι] in
/-- The inode that a call is setting up is in the hash. -/
theorem PhaseFits.building {h : InodeHash ι} {lower : ι} {p : IgetPhase} {u : ℕ}
    (hp : PhaseFits h lower p) (hu : p.building = some u) : h.inodes u ≠ none := by
  cases p with
  | inserted v =>
      cases hu
      intro hnone
      cases hnone.symm.trans hp
  | filled v =>
      cases hu
      intro hnone
      cases hnone.symm.trans hp
  | waiting v => cases hu
  | returned v => cases hu
  | failed e => cases hu
  | dropped => cases hu

omit [DecidableEq ι] in
/-- A phase still fits when the inode its call is setting up is the same and no inode has gone. -/
theorem PhaseFits.mono {h g : InodeHash ι} {lower : ι} {p : IgetPhase}
    (hp : PhaseFits h lower p) (hsame : ∀ u, p.building = some u → g.inodes u = h.inodes u)
    (hlive : ∀ u, h.inodes u ≠ none → p.refersTo = some u → g.inodes u ≠ none) :
    PhaseFits g lower p := by
  cases p with
  | inserted u => exact (hsame u rfl).trans hp
  | filled u => exact (hsame u rfl).trans hp
  | waiting u => exact hlive u hp rfl
  | returned u => exact hlive u hp rfl
  | failed e => trivial
  | dropped => trivial

omit [DecidableEq ι] in
/-- The empty cache has the shape. -/
theorem cacheShape_empty : CacheShape (.empty : Icache ι) :=
  ⟨fun _ _ => rfl, nofun, nofun⟩

omit [DecidableEq ι] in
/-- A new call, which may have added an inode. -/
theorem CacheShape.addCall (h : CacheShape s) {g : InodeHash ι} {lower : ι} {p : IgetPhase}
    (hfresh : ∀ u, g.next ≤ u → g.inodes u = none)
    (hold : ∀ u, s.inodes u ≠ none → g.inodes u = s.inodes u)
    (hp : PhaseFits g lower p) (hnew : ∀ u, p.building = some u → s.inodes u = none) :
    CacheShape ⟨g, s.calls ++ [⟨lower, p⟩]⟩ := by
  refine ⟨hfresh, fun {i c} hi => ?_, fun {i j c d u} hi hj hc hd => ?_⟩
  · rcases getElem?_concat_cases hi with ⟨-, rfl⟩ | hi
    · exact hp
    · refine (h.fits hi).mono (fun u hu => hold u ((h.fits hi).building hu)) fun u hu _ => ?_
      rwa [hold u hu]
  · rcases getElem?_concat_cases hi with ⟨rfl, rfl⟩ | hi <;>
      rcases getElem?_concat_cases hj with ⟨rfl, rfl⟩ | hj
    · rfl
    · exact absurd (hnew u hc) ((h.fits hj).building hd)
    · exact absurd (hnew u hd) ((h.fits hi).building hc)
    · exact h.apart hi hj hc hd

omit [DecidableEq ι] in
/-- A call moves on; it may change the inode it is setting up. -/
theorem CacheShape.moveCall (h : CacheShape s) {g : InodeHash ι} {i : ℕ} {lower : ι}
    {p p' : IgetPhase} (hi : s.calls[i]? = some ⟨lower, p⟩) (hnext : g.next = s.next)
    (hother : ∀ u, p.building ≠ some u → g.inodes u = s.inodes u)
    (hlive : ∀ u, s.inodes u ≠ none → g.inodes u ≠ none)
    (hp : PhaseFits g lower p') (hb : ∀ u, p'.building = some u → p.building = some u) :
    CacheShape ⟨g, s.calls.set i ⟨lower, p'⟩⟩ := by
  refine ⟨fun u hu => ?_, fun {j c} hj => ?_, fun {j j' c d u} hj hj' hc hd => ?_⟩
  · have hnone : s.inodes u = none := h.fresh u (hnext ▸ hu)
    have hnot : p.building ≠ some u := fun hbuild => (h.fits hi).building hbuild hnone
    exact (hother u hnot).trans hnone
  · rcases getElem?_set_cases hj with ⟨-, rfl⟩ | ⟨hne, hj⟩
    · exact hp
    · refine (h.fits hj).mono (fun u hu => hother u fun hpu => ?_) fun u hu _ => hlive u hu
      exact hne (h.apart hj hi hu hpu)
  · rcases getElem?_set_cases hj with ⟨rfl, rfl⟩ | ⟨-, hold⟩ <;>
      rcases getElem?_set_cases hj' with ⟨rfl, rfl⟩ | ⟨-, hold'⟩
    · rfl
    · exact h.apart hi hold' (hb u hc) hd
    · exact h.apart hold hi hc (hb u hd)
    · exact h.apart hold hold' hc hd

/-- All an `iget` step can do. -/
inductive IgetMoves (s : Icache ι) : IgetAction ι → Icache ι → Prop where
  | found {lower : ι} {u : ℕ} (alloc : Bool) (hfind : findInode s.toInodeHash lower = some u) :
      IgetMoves s (.iget5 lower alloc) ⟨s.toInodeHash, s.calls ++ [⟨lower, .waiting u⟩]⟩
  | insert {lower : ι} (hnone : findInode s.toInodeHash lower = none) :
      IgetMoves s (.iget5 lower true)
        ⟨s.insertNew ⟨none, true⟩, s.calls ++ [⟨lower, .inserted s.next⟩]⟩
  | noMemory {lower : ι} (hnone : findInode s.toInodeHash lower = none) :
      IgetMoves s (.iget5 lower false) ⟨s.toInodeHash, s.calls ++ [⟨lower, .failed .EACCES⟩]⟩
  | fill {i u : ℕ} {lower : ι} (hi : s.calls[i]? = some ⟨lower, .inserted u⟩)
      (hu : s.inodes u = some ⟨none, true⟩) :
      IgetMoves s (.setLower i true)
        ⟨s.set u (some ⟨some lower, true⟩), s.calls.set i ⟨lower, .filled u⟩⟩
  | stale {i u : ℕ} {lower : ι} (hi : s.calls[i]? = some ⟨lower, .inserted u⟩)
      (hu : s.inodes u = some ⟨none, true⟩) :
      IgetMoves s (.setLower i false) ⟨s.toInodeHash, s.calls.set i ⟨lower, .failed .ESTALE⟩⟩
  | unlock {i u : ℕ} {lower : ι} (hi : s.calls[i]? = some ⟨lower, .filled u⟩)
      (hu : s.inodes u = some ⟨some lower, true⟩) :
      IgetMoves s (.unlockNew i)
        ⟨s.set u (some ⟨some lower, false⟩), s.calls.set i ⟨lower, .returned u⟩⟩
  | wake {i u : ℕ} {lower : ι} (hi : s.calls[i]? = some ⟨lower, .waiting u⟩)
      (hu : s.inodes u ≠ none) :
      IgetMoves s (.wake i) ⟨s.toInodeHash, s.calls.set i ⟨lower, .returned u⟩⟩
  | drop {i u : ℕ} {lower : ι} (hi : s.calls[i]? = some ⟨lower, .returned u⟩) :
      IgetMoves s (.drop i) ⟨s.toInodeHash, s.calls.set i ⟨lower, .dropped⟩⟩
  | evict {u : ℕ} {inode : HashedInode ι} (hu : s.inodes u = some inode)
      (hnew : inode.isNew = false) (hfree : ∀ c ∈ s.calls, c.phase.refersTo ≠ some u) :
      IgetMoves s (.evict u) ⟨s.set u none, s.calls⟩

/-- A step that can be taken returns: a call that has come to it still has its inode. -/
theorem CacheShape.igetMoves (h : CacheShape s) {a : IgetAction ι}
    (hen : igetStep s a ≠ .error .blocked) :
    ∃ s', igetStep s a = .ok s' ∧ IgetMoves s a s' := by
  cases a with
  | iget5 lower alloc =>
      refine ⟨_, rfl, ?_⟩
      unfold iget5Step
      split
      · rename_i u hfind
        exact .found alloc hfind
      · rename_i hnone
        cases alloc with
        | true => exact .insert hnone
        | false => exact .noMemory hnone
  | setLower i igrab =>
      simp only [igetStep, setLowerStep] at hen ⊢
      split at hen
      · rename_i lower u hi
        have hu : s.inodes u = some ⟨none, true⟩ := h.fits hi
        simp only [hu]
        cases igrab with
        | true => exact ⟨_, rfl, .fill hi hu⟩
        | false => exact ⟨_, rfl, .stale hi hu⟩
      · exact absurd rfl hen
  | unlockNew i =>
      simp only [igetStep, unlockNewStep] at hen ⊢
      split at hen
      · rename_i lower u hi
        have hu : s.inodes u = some ⟨some lower, true⟩ := h.fits hi
        simp only [hu]
        exact ⟨_, rfl, .unlock hi hu⟩
      · exact absurd rfl hen
  | wake i =>
      simp only [igetStep, wakeStep] at hen ⊢
      split at hen
      · rename_i lower u hi
        have hu : s.inodes u ≠ none := h.fits hi
        obtain ⟨inode, hinode⟩ := Option.ne_none_iff_exists'.mp hu
        simp only [hinode] at hen ⊢
        split
        · rename_i hnew
          exact absurd (if_pos hnew) hen
        · exact ⟨_, rfl, .wake hi hu⟩
      · exact absurd rfl hen
  | drop i =>
      simp only [igetStep, dropStep] at hen ⊢
      split at hen
      · rename_i lower u hi
        exact ⟨_, rfl, .drop hi⟩
      · exact absurd rfl hen
  | evict u =>
      simp only [igetStep, evictStep] at hen ⊢
      split
      · rename_i hnone
        rw [hnone] at hen
        exact absurd rfl hen
      · rename_i inode hu
        simp only [hu] at hen
        split
        · rename_i hbusy
          exact absurd (if_pos hbusy) hen
        · rename_i hfree
          obtain ⟨hnew, hrefs⟩ := not_or.mp hfree
          refine ⟨_, rfl, .evict hu (Bool.eq_false_iff.mpr hnew) fun c hc hcu => ?_⟩
          exact hrefs ⟨c, hc, hcu⟩

/-- Every move keeps the shape. -/
theorem CacheShape.moves (h : CacheShape s) {a : IgetAction ι} (hm : IgetMoves s a s') :
    CacheShape s' := by
  cases hm with
  | found alloc hfind =>
      refine h.addCall h.fresh (fun _ _ => rfl) ?_ nofun
      obtain ⟨inode, hu, -⟩ := Option.bind_eq_some_iff.mp (findInode_eq_some hfind)
      exact fun hnone => nomatch hnone.symm.trans hu
  | insert hnone =>
      refine h.addCall (fun u hu => ?_) (fun u hu => ?_) (s.set_self _ _) fun u hu => ?_
      · have hne : u ≠ s.next := Nat.ne_of_gt hu
        exact (s.set_of_ne hne _).trans (h.fresh u (Nat.le_of_succ_le hu))
      · have hne : u ≠ s.next := by
          rintro rfl
          exact hu (h.fresh s.next le_rfl)
        exact s.set_of_ne hne _
      · cases hu
        exact h.fresh s.next le_rfl
  | noMemory hnone => exact h.addCall h.fresh (fun _ _ => rfl) trivial nofun
  | @fill i u lower hi hu =>
      refine h.moveCall hi rfl (fun v hv => s.set_of_ne (fun heq => hv (congrArg some heq.symm)) _)
        (fun v hv => ?_) (s.set_self _ _) fun v hv => hv
      by_cases hvu : v = u
      · rw [hvu, s.set_self]
        exact Option.some_ne_none _
      · rwa [s.set_of_ne hvu]
  | stale hi hu => exact h.moveCall hi rfl (fun _ _ => rfl) (fun _ hv => hv) trivial nofun
  | @unlock i u lower hi hu =>
      have hself : (s.set u (some ⟨some lower, false⟩)).inodes u ≠ none := by
        rw [s.set_self]
        exact Option.some_ne_none _
      refine h.moveCall hi rfl (fun v hv => s.set_of_ne (fun heq => hv (congrArg some heq.symm)) _)
        (fun v hv => ?_) hself nofun
      by_cases hvu : v = u
      · rwa [hvu]
      · rwa [s.set_of_ne hvu]
  | wake hi hu => exact h.moveCall hi rfl (fun _ _ => rfl) (fun _ hv => hv) hu nofun
  | drop hi => exact h.moveCall hi rfl (fun _ _ => rfl) (fun _ hv => hv) trivial nofun
  | @evict u inode hu hnew hfree =>
      have hne : ∀ {i : ℕ} {c : IgetCall ι}, s.calls[i]? = some c → ∀ v,
          c.phase.refersTo = some v → v ≠ u := by
        rintro i c hi v hv rfl
        exact hfree c (List.mem_of_getElem? hi) hv
      refine ⟨fun v hv => ?_, fun {i c} hi => ?_, h.apart⟩
      · by_cases hvu : v = u
        · rw [hvu]
          exact s.set_self _ _
        · exact (s.set_of_ne hvu _).trans (h.fresh v hv)
      · refine (h.fits hi).mono (fun v hv => s.set_of_ne (hne hi v (IgetPhase.refersTo_of_building hv)) _)
          fun v hlive hv => ?_
        rwa [s.set_of_ne (hne hi v hv)]

end Shape

/-! ## The ledgers, step by step -/

section Ledgers

variable {r : InodeRefs ι} {s' : Icache ι} {es : List (Event ι)} {fs : List (Event ℕ)}

omit [DecidableEq ι] in
/-- An inode that is not complete keeps the call that is setting it up when another call, or one
that sets nothing up, moves on. -/
theorem building_of_set {calls : List (IgetCall ι)} {i u : ℕ} {c' : IgetCall ι}
    (hold : ∀ c, calls[i]? = some c → c.phase.building ≠ some u)
    (h : ∃ (j : ℕ) (c : IgetCall ι), calls[j]? = some c ∧ c.phase.building = some u) :
    ∃ (j : ℕ) (c : IgetCall ι), (calls.set i c')[j]? = some c ∧ c.phase.building = some u := by
  obtain ⟨j, c, hj, hc⟩ := h
  have hne : i ≠ j := by
    rintro rfl
    exact hold c hj hc
  exact ⟨j, c, by rwa [List.getElem?_set_ne hne], hc⟩

omit [DecidableEq ι] in
/-- A new call takes nothing from the calls that are setting inodes up. -/
theorem building_of_append {calls : List (IgetCall ι)} {u : ℕ} {c' : IgetCall ι}
    (h : ∃ (j : ℕ) (c : IgetCall ι), calls[j]? = some c ∧ c.phase.building = some u) :
    ∃ (j : ℕ) (c : IgetCall ι), (calls ++ [c'])[j]? = some c ∧ c.phase.building = some u := by
  obtain ⟨j, c, hj, hc⟩ := h
  have hlt : j < calls.length := (List.getElem?_eq_some_iff.mp hj).1
  exact ⟨j, c, by rwa [List.getElem?_append_left hlt], hc⟩

/-- A call begins and holds the inode it refers to.  An inode that is not complete was there, or
is the call's own. -/
theorem RefsKept.addCall (hk : RefsKept r) {g : InodeHash ι} {lower : ι} {p : IgetPhase} {u : ℕ}
    (hp : p.refersTo = some u) (hlower : g.lowerInodes = r.cache.lowerInodes)
    (hhalf : ∀ v inode, g.inodes v = some inode → inode.isNew = true ∨ inode.lower = none →
      p.building = some v ∨ r.cache.inodes v = some inode) :
    RefsKept ⟨⟨g, r.cache.calls ++ [⟨lower, p⟩]⟩, r.lower, r.upper ++ [.acquire u]⟩ := by
  refine ⟨?_, ?_, fun v inode hv hnot => ?_⟩
  · rw [hk.lower, hlower]
  · have hrefs := Icache.callRefs_append r.cache ⟨lower, p⟩
    rw [hp, refOn_some, add_comm, Multiset.singleton_add] at hrefs
    rw [replay_append hk.upper, replay_acquire, replay_nil, ← hrefs]
    rfl
  · rcases hhalf v inode hv hnot with hown | hold
    · exact ⟨r.cache.calls.length, ⟨lower, p⟩, by simp, hown⟩
    · exact building_of_append (hk.complete v inode hold hnot)

/-- A call moves on and refers to the same inode.  An inode that is not complete is the call's
own, or was there and is another call's. -/
theorem RefsKept.moveCall (hk : RefsKept r) {g : InodeHash ι} {i : ℕ} {lower : ι}
    {p p' : IgetPhase} (hi : r.cache.calls[i]? = some ⟨lower, p⟩)
    (hsame : p'.refersTo = p.refersTo) (hlower : replay 0 (r.lower ++ es) = some g.lowerInodes)
    (hhalf : ∀ v inode, g.inodes v = some inode → inode.isNew = true ∨ inode.lower = none →
      p'.building = some v ∨ p.building ≠ some v ∧ r.cache.inodes v = some inode) :
    RefsKept ⟨⟨g, r.cache.calls.set i ⟨lower, p'⟩⟩, r.lower ++ es, r.upper⟩ := by
  refine ⟨hlower, ?_, fun v inode hv hnot => ?_⟩
  · have hrefs := Icache.callRefs_setPhase hi p'
    rw [hsame, add_left_inj] at hrefs
    rw [hk.upper, ← hrefs]
    rfl
  · rcases hhalf v inode hv hnot with hown | ⟨hother, hold⟩
    · refine ⟨i, ⟨lower, p'⟩, ?_, hown⟩
      rw [List.getElem?_set_self (List.getElem?_eq_some_iff.mp hi).1]
    · refine building_of_set (fun c hc => ?_) (hk.complete v inode hold hnot)
      obtain rfl := Option.some.inj (hi.symm.trans hc)
      exact hother

/-- The caller of a call that has returned puts the inode. -/
theorem RefsKept.putCall (hk : RefsKept r) {i u : ℕ} {lower : ι}
    (hi : r.cache.calls[i]? = some ⟨lower, .returned u⟩) :
    RefsKept ⟨r.cache.setPhase i lower .dropped, r.lower, r.upper ++ [.release u]⟩ := by
  refine ⟨hk.lower, ?_, fun v inode hv hhalf => ?_⟩
  · have hrefs : (r.cache.setPhase i lower .dropped).callRefs + {u} = r.cache.callRefs + 0 :=
      Icache.callRefs_setPhase hi .dropped
    rw [add_zero, add_comm, Multiset.singleton_add] at hrefs
    rw [replay_append hk.upper, ← hrefs, replay_release_head, replay_nil]
  · refine building_of_set (fun c hc => ?_) (hk.complete v inode hv hhalf)
    obtain rfl := Option.some.inj (hi.symm.trans hc)
    exact nofun

omit [DecidableEq ι] in
/-- A live inode has a number below the next one. -/
theorem CacheShape.lt_next (h : CacheShape s') {u : ℕ} {inode : HashedInode ι}
    (hu : s'.inodes u = some inode) : u < s'.next := by
  by_contra hge
  exact nomatch (h.fresh u (Nat.le_of_not_lt hge)).symm.trans hu

omit [DecidableEq ι] in
/-- A call replaces the inode it is setting up; the others are as they were. -/
theorem building_or_old {h : InodeHash ι} {p : IgetPhase} {u v : ℕ} {inode : HashedInode ι}
    {new : Option (HashedInode ι)} (hp : p.building = some u)
    (hv : (h.set u new).inodes v = some inode) :
    v = u ∨ p.building ≠ some v ∧ h.inodes v = some inode := by
  by_cases hvu : v = u
  · exact Or.inl hvu
  · rw [h.set_of_ne hvu] at hv
    refine Or.inr ⟨fun hpv => hvu ?_, hv⟩
    exact Option.some.inj (hpv.symm.trans hp)

/-- `iget5_locked` fails: no upper inode has the lower inode that is put. -/
theorem RefsKept.not_noMemory (h : CacheShape r.cache) (hk : RefsKept r) {lower : ι}
    (hnone : findInode r.cache.toInodeHash lower = none) :
    replay 0 (r.lower ++ [.release lower]) = none := by
  have hnot : lower ∉ r.cache.lowerInodes := by
    rw [InodeHash.mem_lowerInodes]
    rintro ⟨u, -, hu⟩
    exact findInode_eq_none h.fresh hnone u hu
  rw [replay_append hk.lower, replay, if_neg hnot]

/-- `igrab` succeeds: the lower inode is held for the inode that now has it. -/
theorem RefsKept.fill (h : CacheShape r.cache) (hk : RefsKept r) {i u : ℕ} {lower : ι}
    (hi : r.cache.calls[i]? = some ⟨lower, .inserted u⟩)
    (hu : r.cache.inodes u = some ⟨none, true⟩) :
    RefsKept ⟨⟨r.cache.set u (some ⟨some lower, true⟩), r.cache.calls.set i ⟨lower, .filled u⟩⟩,
      r.lower ++ [.acquire lower], r.upper⟩ := by
  refine hk.moveCall hi rfl ?_ fun v inode hv _ => ?_
  · have hnone : r.cache.lowerOf u = none := by
      rw [InodeHash.lowerOf, hu]
      rfl
    have hset : (r.cache.set u (some ⟨some lower, true⟩)).lowerInodes + 0 =
        r.cache.lowerInodes + {lower} := by
      have hset := InodeHash.lowerInodes_set (h.lt_next hu) (some ⟨some lower, true⟩)
      rwa [hnone] at hset
    rw [add_zero, add_comm, Multiset.singleton_add] at hset
    rw [replay_append hk.lower, replay_acquire, replay_nil, hset]
  · rcases building_or_old (p := .inserted u) rfl hv with rfl | hold
    · exact Or.inl rfl
    · exact Or.inr hold

/-- `unlock_new_inode`: the inode is complete. -/
theorem RefsKept.unlock (h : CacheShape r.cache) (hk : RefsKept r) {i u : ℕ} {lower : ι}
    (hi : r.cache.calls[i]? = some ⟨lower, .filled u⟩)
    (hu : r.cache.inodes u = some ⟨some lower, true⟩) :
    RefsKept ⟨⟨r.cache.set u (some ⟨some lower, false⟩),
      r.cache.calls.set i ⟨lower, .returned u⟩⟩, r.lower ++ [], r.upper⟩ := by
  refine hk.moveCall hi rfl ?_ fun v inode hv hnot => ?_
  · have hsome : r.cache.lowerOf u = some lower := by
      rw [InodeHash.lowerOf, hu]
      rfl
    have hset := InodeHash.lowerInodes_set (h.lt_next hu) (some ⟨some lower, false⟩)
    rw [hsome] at hset
    rw [List.append_nil, hk.lower, add_right_cancel hset]
  · rcases building_or_old (p := .filled u) rfl hv with rfl | hold
    · rw [r.cache.set_self] at hv
      cases hv
      rcases hnot with hnew | hnone
      · cases hnew
      · cases hnone
    · exact Or.inr hold

/-- An inode in the hash that no call refers to has a lower inode. -/
theorem RefsKept.lowerOf_of_free (hk : RefsKept r) {u : ℕ} {inode : HashedInode ι}
    (hu : r.cache.inodes u = some inode)
    (hfree : ∀ c ∈ r.cache.calls, c.phase.refersTo ≠ some u) :
    ∃ x, r.cache.lowerOf u = some x := by
  rw [InodeHash.lowerOf, hu, ← Option.ne_none_iff_exists']
  intro hnone
  obtain ⟨j, c, hj, hc⟩ := hk.complete u inode hu (Or.inr hnone)
  exact hfree c (List.mem_of_getElem? hj) (IgetPhase.refersTo_of_building hc)

/-- `wrapfs_evict_inode` puts the lower inode. -/
theorem RefsKept.evict (h : CacheShape r.cache) (hk : RefsKept r) {u : ℕ}
    {inode : HashedInode ι} {x : ι} (hu : r.cache.inodes u = some inode)
    (hx : r.cache.lowerOf u = some x) :
    RefsKept ⟨⟨r.cache.set u none, r.cache.calls⟩, r.lower ++ [.release x], r.upper⟩ := by
  refine ⟨?_, hk.upper, fun v inode' hv hhalf => ?_⟩
  · have hset : (r.cache.set u none).lowerInodes + {x} = r.cache.lowerInodes + 0 := by
      have hset := InodeHash.lowerInodes_set (h.lt_next hu) none
      rwa [hx] at hset
    rw [add_zero, add_comm, Multiset.singleton_add] at hset
    rw [replay_append hk.lower, ← hset, replay_release_head, replay_nil]
  · have hvu : v ≠ u := by
      rintro rfl
      rw [r.cache.set_self] at hv
      cases hv
    rw [r.cache.set_of_ne hvu] at hv
    exact hk.complete v inode' hv hhalf

/-- **One move** keeps the ledgers exactly when it is not one of the failures. -/
theorem refsKept_moves_iff (h : CacheShape r.cache) (hk : RefsKept r) {a : IgetAction ι}
    (hm : IgetMoves r.cache a s') :
    RefsKept ⟨s', r.lower ++ igetLowerRefs r.cache a, r.upper ++ igetUpperRefs r.cache a⟩ ↔
      NoBadFailure r (.iget a) := by
  cases hm with
  | @found lower u alloc hfind =>
      refine iff_of_true ?_ (Or.inr (by simp [hfind]))
      simp only [igetLowerRefs, igetUpperRefs, hfind, List.append_nil]
      exact hk.addCall rfl rfl fun v inode hv _ => Or.inr hv
  | @insert lower hnone =>
      refine iff_of_true ?_ (Or.inl rfl)
      simp only [igetLowerRefs, igetUpperRefs, hnone, if_true, List.append_nil]
      refine hk.addCall rfl (InodeHash.lowerInodes_insertNew _) fun v inode hv _ => ?_
      rcases building_or_old (p := .inserted r.cache.next) rfl hv with rfl | ⟨-, hold⟩
      · exact Or.inl rfl
      · exact Or.inr hold
  | @noMemory lower hnone =>
      refine iff_of_false (fun hk' => ?_) (by simp [NoBadFailure, hnone])
      have hbad := hk'.lower
      simp only [igetLowerRefs, hnone, Bool.false_eq_true, if_false,
        hk.not_noMemory h hnone] at hbad
      cases hbad
  | @fill i u lower hi hu =>
      refine iff_of_true ?_ rfl
      simp only [igetLowerRefs, igetUpperRefs, hi, if_true, List.append_nil]
      exact hk.fill h hi hu
  | @stale i u lower hi hu =>
      refine iff_of_false (fun hk' => ?_) Bool.false_ne_true
      -- the inode is left to nobody
      obtain ⟨j, c, hj, hc⟩ := hk'.complete u _ hu (Or.inl rfl)
      rcases getElem?_set_cases hj with ⟨-, rfl⟩ | ⟨hne, hj⟩
      · cases hc
      · exact hne (h.apart hj hi hc rfl)
  | @unlock i u lower hi hu =>
      refine iff_of_true ?_ trivial
      simp only [igetLowerRefs, igetUpperRefs, List.append_nil r.upper]
      exact hk.unlock h hi hu
  | @wake i u lower hi hu =>
      refine iff_of_true ?_ trivial
      simp only [igetLowerRefs, igetUpperRefs, List.append_nil r.upper]
      refine hk.moveCall hi rfl ?_ fun v inode hv _ => Or.inr ⟨(Option.some_ne_none v).symm, hv⟩
      rw [List.append_nil, hk.lower]
  | @drop i u lower hi =>
      refine iff_of_true ?_ trivial
      simp only [igetLowerRefs, igetUpperRefs, hi, List.append_nil]
      exact hk.putCall hi
  | @evict u inode hu hnew hfree =>
      obtain ⟨x, hx⟩ := hk.lowerOf_of_free hu hfree
      refine iff_of_true ?_ trivial
      simp only [igetLowerRefs, igetUpperRefs, hx, List.append_nil]
      exact hk.evict h hu hx

end Ledgers

/-! ## Runs -/

section Runs

variable {r r' : InodeRefs ι} {a : RefAction ι}

/-- What `wrapfs_read_super` does with the root inode, by the answers it gets. -/
theorem readSuperStep_cases {i : ℕ} {allocRoot privateData : Bool}
    (hen : RefEnabled r (.readSuper i allocRoot privateData)) :
    ∃ lower u, r.cache.calls[i]? = some ⟨lower, .returned u⟩ ∧
      refStep r (.readSuper i allocRoot privateData) =
        if allocRoot then if privateData then .ok r else .error .badPointer
        else .ok ⟨r.cache.setPhase i lower .dropped, r.lower, r.upper ++ [.release u]⟩ := by
  unfold RefEnabled at hen
  simp only [refStep, readSuperStep] at hen ⊢
  split at hen
  · rename_i lower u hi
    simp only [hi]
    exact ⟨lower, u, rfl, rfl⟩
  · exact absurd rfl hen

/-- Every step keeps the shape. -/
theorem CacheShape.refStep (h : CacheShape r.cache) (hen : RefEnabled r a)
    (hstep : refStep r a = .ok r') : CacheShape r'.cache := by
  cases a with
  | iget b =>
      simp only [Wrapfs.refStep] at hstep
      split at hstep
      · cases hstep
      · rename_i cache hcache
        cases hstep
        have hen' : igetStep r.cache b ≠ .error .blocked := by
          rw [hcache]
          exact nofun
        obtain ⟨s', hs', hm⟩ := h.igetMoves hen'
        obtain rfl := Except.ok.inj (hcache.symm.trans hs')
        exact h.moves hm
  | readSuper i allocRoot privateData =>
      obtain ⟨lower, u, hi, hcall⟩ := readSuperStep_cases hen
      rw [hcall] at hstep
      split_ifs at hstep
      · cases hstep
        exact h
      · cases hstep
        exact h.moveCall hi rfl (fun _ _ => rfl) (fun _ hv => hv) trivial nofun

/-- **One step** that can be taken returns with the ledgers kept exactly when it is not one of the
failures. -/
theorem refsKept_step_iff (h : CacheShape r.cache) (hk : RefsKept r) (hen : RefEnabled r a) :
    (∃ r', refStep r a = .ok r' ∧ RefsKept r') ↔ NoBadFailure r a := by
  cases a with
  | iget b =>
      have hen' : igetStep r.cache b ≠ .error .blocked := by
        intro hblocked
        refine hen ?_
        simp only [refStep, hblocked]
      obtain ⟨s', hs', hm⟩ := h.igetMoves hen'
      rw [← refsKept_moves_iff h hk hm]
      simp only [refStep, hs', Except.ok.injEq, exists_eq_left']
  | readSuper i allocRoot privateData =>
      obtain ⟨lower, u, hi, hcall⟩ := readSuperStep_cases hen
      rw [hcall]
      cases allocRoot with
      | false =>
          refine iff_of_true ⟨_, rfl, hk.putCall hi⟩ nofun
      | true =>
          cases privateData with
          | true => exact iff_of_true ⟨_, rfl, hk⟩ fun _ => rfl
          | false => exact iff_of_false (fun ⟨_, hret, _⟩ => nomatch hret) fun hdata => nomatch hdata rfl

/-- Nothing is held of an empty cache. -/
theorem refsKept_empty : RefsKept (.empty : InodeRefs ι) :=
  ⟨rfl, rfl, nofun⟩

/-- The ledgers when no inode is being set up: as many references on each lower inode as live
upper inodes have it, and every inode in the hash complete. -/
theorem RefsKept.at_rest (hk : RefsKept r)
    (hidle : ∀ c ∈ r.cache.calls, c.phase.building = none) :
    (∃ held, replay 0 r.lower = some held ∧ ∀ x, held.count x =
      ((Finset.range r.cache.next).filter fun u => r.cache.lowerOf u = some x).card) ∧
    ∀ u inode, r.cache.inodes u = some inode → inode.isNew = false ∧ inode.lower ≠ none := by
  refine ⟨⟨_, hk.lower, r.cache.count_lowerInodes⟩, fun u inode hu => ?_⟩
  have hcomplete : ¬ (inode.isNew = true ∨ inode.lower = none) := by
    intro hhalf
    obtain ⟨i, c, hi, hc⟩ := hk.complete u inode hu hhalf
    rw [hidle c (List.mem_of_getElem? hi)] at hc
    cases hc
  obtain ⟨hnew, hlower⟩ := not_or.mp hcomplete
  exact ⟨Bool.eq_false_iff.mpr hnew, hlower⟩

/-- **The reference ledgers.**  In any run of `wrapfs_iget` calls, interleaved step by step, of
mounts, drops and evictions, with any failing allocation or `igrab`: after every step each lower
inode is held exactly once for every live upper inode that has it, each upper inode exactly once
for every call that refers to it, nothing has been put that was not held, and an inode that is
not complete has a call in progress that is setting it up — if and only if no `iget5_locked`
fails, no `igrab` fails, and no root dentry is refused its private data.  The second part reads
this off where no call is in progress. -/
theorem refs_kept_iff {as : List (RefAction ι)} (hen : Along refStep RefEnabled .empty as) :
    ((∀ pre, pre <+: as → ∃ r, run refStep .empty pre = .ok r ∧ RefsKept r) ↔
      Along refStep NoBadFailure (.empty : InodeRefs ι) as) ∧
    ∀ r : InodeRefs ι, RefsKept r → (∀ c ∈ r.cache.calls, c.phase.building = none) →
      (∃ held, replay 0 r.lower = some held ∧ ∀ x, held.count x =
        ((Finset.range r.cache.next).filter fun u => r.cache.lowerOf u = some x).card) ∧
      ∀ u inode, r.cache.inodes u = some inode → inode.isNew = false ∧ inode.lower ≠ none :=
  ⟨forall_prefix_iff_along (J := fun r => CacheShape r.cache)
      (fun _ _ _ hshape hen hstep => hshape.refStep hen hstep)
      (fun _ _ hshape hkept hen => refsKept_step_iff hshape hkept hen)
      cacheShape_empty refsKept_empty hen,
    fun _ hkept hidle => hkept.at_rest hidle⟩

end Runs

/-- A mount that fails for want of a root dentry, and the eviction of its inode: lower inode `7`
is grabbed and put, once each. -/
def failedMount : List (RefAction ℕ) :=
  [.iget (.iget5 7 true), .iget (.setLower 0 true), .iget (.unlockNew 0), .readSuper 0 false true,
    .iget (.evict 0)]

theorem refs_kept_iff_failedMount :
    ∃ r, run refStep .empty failedMount = .ok r ∧ RefsKept r ∧
      r.lower = [.acquire 7, .release 7] ∧ r.upper = [.acquire 0, .release 0] := by
  have hrun : run refStep .empty failedMount = .ok _ := rfl
  have hen : Along refStep RefEnabled .empty failedMount := by
    refine Along.transfer (I := fun _ => True) (fun _ _ _ _ _ _ => trivial) ?_ trivial
      (along_of_run hrun)
    rintro r a - ⟨r', hr'⟩
    rw [RefEnabled, hr']
    exact nofun
  have hgood : Along refStep NoBadFailure .empty failedMount := by
    refine ⟨Or.inl rfl, fun r₁ _ => ⟨rfl, fun r₂ _ => ⟨trivial, fun r₃ _ => ?_⟩⟩⟩
    exact ⟨nofun, fun r₄ _ => ⟨trivial, fun _ _ => trivial⟩⟩
  obtain ⟨r, hr, hkept⟩ := (refs_kept_iff hen).1.mpr hgood _ (List.prefix_refl _)
  obtain rfl := Except.ok.inj (hrun.symm.trans hr)
  exact ⟨_, hrun, hkept, rfl, rfl⟩

/-- Without memory for the inode, a lower inode is put that was never grabbed.  Without a
successful `igrab`, an inode without a lower inode stays in the hash, locked, and no call is in
progress.  Without private data for the root dentry, the mount follows a null pointer. -/
theorem refs_lost :
    (∃ r, run refStep .empty [.iget (.iget5 7 false)] = .ok r ∧ r.lower = [.release 7] ∧
      replay 0 r.lower = none) ∧
    (∃ r, run refStep (.empty : InodeRefs ℕ) [.iget (.iget5 7 true), .iget (.setLower 0 false)] =
        .ok r ∧
      r.cache.inodes 0 = some ⟨none, true⟩ ∧
      r.cache.calls.map IgetCall.phase = [.failed .ESTALE] ∧ replay 0 r.upper = some {0}) ∧
    run refStep (.empty : InodeRefs ℕ) [.iget (.iget5 7 true), .iget (.setLower 0 true),
      .iget (.unlockNew 0), .readSuper 0 true false] = .error .badPointer :=
  ⟨⟨_, rfl, rfl, rfl⟩, ⟨_, rfl, rfl, rfl, rfl⟩, rfl⟩

end Wrapfs
