import Mathlib
import Wrapfs.Kernel
import Wrapfs.Foundations.Runs
import Wrapfs.Foundations.Ledger

/-!
# `wrapfs_iget`

`wrapfs_iget` finds or makes the upper inode of a lower inode, and it appears here twice.
`wrapfsIget` is the function as a whole, which is what the other operations call while nothing
else runs.  It is not atomic, though: `iget5_locked` searches the inode hash with
`wrapfs_inode_test` and, if that finds nothing, inserts a new inode, both under the hash lock; the
lower inode is stored into the new inode by a later `wrapfs_set_lower_inode`; `unlock_new_inode`
comes last.  In `igetStep` each of these is a step, and the steps of any number of calls, for any
lower inodes, come in any order, together with callers dropping their inodes and unused inodes
being evicted.  A call whose steps run without others between them does what `wrapfsIget` does
(`run_igetAlone`).

## The gap

`wrapfs_inode_test` compares the stored lower inode, but `wrapfs_inode_set`, which runs under the
lock, stores nothing.  Between the insertion and `wrapfs_set_lower_inode` the new inode is in the
hash and cannot be found, so a second call for the same lower inode inserts a second one
(`two_inodes_for_one_lower`).  `NoOpenInsertion` is the condition that this does not happen: no
call searches the hash for a lower inode while another has inserted an inode for it and not yet
stored it.  `one_inode_per_lower` is what follows from it for every run.

## The hash

Lower inodes are values of an arbitrary type: the code only ever compares them.  Upper inodes are
numbered as they are made and their numbers are not used again, so that a number tells a new inode
from one that was evicted.  `InodeHash.Wf` says that at most one inode has a given lower inode.
It is an invariant of the function as a whole (`Wf.insertNew`, `Wf.remove`), and the directory
operations, which run while nothing else does, carry it along.

## The invariant of the steps

`IcacheInv` extends the well-formedness of the hash by what the calls in progress need: an inode
that is inserted and not yet stored is in the hash without a lower inode, and no other has the
lower inode it is for (`pending`); such insertions are for different lower inodes (`apart`); and a
call that is past the store has an inode of its own lower inode (`held`).  With `pending` the
later store cannot make a second inode for one lower inode.  `NoOpenInsertion` is needed for
`apart` only, and at one step, the insertion; all other steps keep the invariant whatever the
interleaving.
-/

namespace Wrapfs

open Runs Ledger

variable {ι : Type}

/-! ## The inode hash -/

/-- An upper inode: its `lower_inode` and `I_NEW`. -/
structure HashedInode (ι : Type) where
  lower : Option ι
  isNew : Bool

/-- The inode hash of one super block.  Inodes are numbered as they are allocated;
`next` is the next number. -/
structure InodeHash (ι : Type) where
  inodes : ℕ → Option (HashedInode ι)
  next : ℕ

namespace InodeHash

/-- The hash of a super block just set up. -/
def empty : InodeHash ι := ⟨fun _ => none, 0⟩

/-- The lower inode stored in upper inode `u`. -/
def lowerOf (h : InodeHash ι) (u : ℕ) : Option ι := (h.inodes u).bind HashedInode.lower

/-- Store inode `u`, or remove it. -/
def set (h : InodeHash ι) (u : ℕ) (inode : Option (HashedInode ι)) : InodeHash ι :=
  { h with inodes := Function.update h.inodes u inode }

@[simp] theorem set_next (h : InodeHash ι) (u : ℕ) (inode : Option (HashedInode ι)) :
    (h.set u inode).next = h.next := rfl

@[simp] theorem set_self (h : InodeHash ι) (u : ℕ) (inode : Option (HashedInode ι)) :
    (h.set u inode).inodes u = inode := Function.update_self _ _ _

/-- The other inodes stay. -/
theorem set_of_ne (h : InodeHash ι) {u v : ℕ} (hv : v ≠ u)
    (inode : Option (HashedInode ι)) : (h.set u inode).inodes v = h.inodes v :=
  Function.update_of_ne hv _ _

@[simp] theorem lowerOf_set_self (h : InodeHash ι) (u : ℕ) (inode : HashedInode ι) :
    (h.set u (some inode)).lowerOf u = inode.lower := by
  simp [lowerOf]

/-- So do their lower inodes. -/
theorem lowerOf_set_of_ne (h : InodeHash ι) {u v : ℕ} (hv : v ≠ u)
    (inode : Option (HashedInode ι)) : (h.set u inode).lowerOf v = h.lowerOf v := by
  rw [lowerOf, set_of_ne h hv, lowerOf]

/-- Add an inode under the next number. -/
def insertNew (h : InodeHash ι) (inode : HashedInode ι) : InodeHash ι :=
  { h.set h.next (some inode) with next := h.next + 1 }

/-- No number has been given away in advance, and no two inodes share a lower
inode. -/
structure Wf (h : InodeHash ι) : Prop where
  fresh : ∀ u, h.next ≤ u → h.inodes u = none
  unique : ∀ u v lower, h.lowerOf u = some lower → h.lowerOf v = some lower → u = v

/-- The hash starts well formed. -/
theorem wf_empty : (empty : InodeHash ι).Wf :=
  ⟨fun _ _ => rfl, fun _ _ _ hu => by cases hu⟩

variable {h : InodeHash ι}

/-- A new inode keeps the hash well formed if no other has its lower inode. -/
theorem Wf.insertNew (hwf : h.Wf) {inode : HashedInode ι}
    (hnew : ∀ x, inode.lower = some x → ∀ v, h.lowerOf v ≠ some x) :
    (h.insertNew inode).Wf := by
  have hne : ∀ {v}, v ≠ h.next → (h.insertNew inode).lowerOf v = h.lowerOf v :=
    fun hv => h.lowerOf_set_of_ne hv _
  have hself : (h.insertNew inode).lowerOf h.next = inode.lower := h.lowerOf_set_self _ _
  refine ⟨fun v hv => ?_, fun v w x hv hw => ?_⟩
  · have hvn : v ≠ h.next := Nat.ne_of_gt hv
    show (h.set h.next _).inodes v = none
    rw [h.set_of_ne hvn]
    exact hwf.fresh v (Nat.le_of_succ_le hv)
  · by_cases hvn : v = h.next
    · by_cases hwn : w = h.next
      · rw [hvn, hwn]
      · rw [hvn, hself] at hv
        rw [hne hwn] at hw
        exact absurd hw (hnew x hv w)
    · by_cases hwn : w = h.next
      · rw [hwn, hself] at hw
        rw [hne hvn] at hv
        exact absurd hv (hnew x hw v)
      · rw [hne hvn] at hv
        rw [hne hwn] at hw
        exact hwf.unique v w x hv hw

/-- An inode with a lower inode does not have the next number. -/
theorem ne_next_of_lowerOf (hfresh : ∀ u, h.next ≤ u → h.inodes u = none) {u : ℕ} {x : ι}
    (hu : h.lowerOf u = some x) : u ≠ h.next := by
  rintro rfl
  rw [lowerOf, hfresh h.next le_rfl] at hu
  cases hu

/-- Inodes keep their lower inodes when another is added. -/
theorem Wf.lowerOf_insertNew (hwf : h.Wf) (inode : HashedInode ι) {u : ℕ} {x : ι}
    (hu : h.lowerOf u = some x) : (h.insertNew inode).lowerOf u = some x := by
  rw [← hu]
  exact h.lowerOf_set_of_ne (ne_next_of_lowerOf hwf.fresh hu) _

/-- What has a lower inode after an inode was added had it before, or is the new one. -/
theorem lowerOf_insertNew_cases {inode : HashedInode ι} {v : ℕ} {x : ι}
    (hv : (h.insertNew inode).lowerOf v = some x) :
    h.lowerOf v = some x ∨ v = h.next ∧ inode.lower = some x := by
  by_cases hvn : v = h.next
  · subst hvn
    exact Or.inr ⟨rfl, (h.lowerOf_set_self _ _).symm.trans hv⟩
  · exact Or.inl ((h.lowerOf_set_of_ne hvn _).symm.trans hv)

/-- An inode may be given a lower inode no other has. -/
theorem Wf.setLower (hwf : h.Wf) {u : ℕ} (hu : h.inodes u ≠ none) {inode : HashedInode ι}
    (hnew : ∀ x, inode.lower = some x → ∀ v ≠ u, h.lowerOf v ≠ some x) :
    (h.set u (some inode)).Wf := by
  refine ⟨fun v hv => ?_, fun v w x hv hw => ?_⟩
  · have hvu : v ≠ u := by
      rintro rfl
      exact hu (hwf.fresh v hv)
    rw [h.set_of_ne hvu]
    exact hwf.fresh v hv
  · by_cases hvu : v = u
    · by_cases hwu : w = u
      · rw [hvu, hwu]
      · rw [hvu, lowerOf_set_self] at hv
        rw [h.lowerOf_set_of_ne hwu] at hw
        exact absurd hw (hnew x hv w hwu)
    · by_cases hwu : w = u
      · rw [hwu, lowerOf_set_self] at hw
        rw [h.lowerOf_set_of_ne hvu] at hv
        exact absurd hv (hnew x hw v hvu)
      · rw [h.lowerOf_set_of_ne hvu] at hv
        rw [h.lowerOf_set_of_ne hwu] at hw
        exact hwf.unique v w x hv hw

/-- Removing an inode leaves the lower inodes of the others. -/
theorem lowerOf_set_none {u v : ℕ} {x : ι} (hv : (h.set u none).lowerOf v = some x) :
    v ≠ u ∧ h.lowerOf v = some x := by
  have hvu : v ≠ u := by
    rintro rfl
    rw [lowerOf, set_self] at hv
    cases hv
  exact ⟨hvu, by rwa [h.lowerOf_set_of_ne hvu] at hv⟩

/-- An eviction keeps the hash well formed. -/
theorem Wf.remove (hwf : h.Wf) (u : ℕ) : (h.set u none).Wf := by
  refine ⟨fun v hv => ?_, fun v w x hv hw => ?_⟩
  · by_cases hvu : v = u
    · rw [hvu, set_self]
    · rw [h.set_of_ne hvu]
      exact hwf.fresh v hv
  · exact hwf.unique v w x (lowerOf_set_none hv).2 (lowerOf_set_none hw).2

end InodeHash

variable [DecidableEq ι]

/-- `wrapfs_inode_test`. -/
def wrapfsInodeTest (inode : HashedInode ι) (candidateLower : ι) : Bool :=
  inode.lower = some candidateLower

/-- `wrapfs_inode_set`: nothing is stored. -/
def wrapfsInodeSet (inode : HashedInode ι) (_lower : ι) : HashedInode ι := inode

/-- `find_inode`: an inode of the hash that passes the test. -/
def findInode (h : InodeHash ι) (lower : ι) : Option ℕ :=
  (List.range h.next).find? fun u =>
    match h.inodes u with
    | none => false
    | some inode => wrapfsInodeTest inode lower

/-- What `find_inode` finds, and when it finds nothing. -/
theorem findInode_eq_some {h : InodeHash ι} {lower : ι} {u : ℕ}
    (hfind : findInode h lower = some u) : h.lowerOf u = some lower := by
  have htest := List.find?_some hfind
  cases hu : h.inodes u with
  | none => simp [hu] at htest
  | some inode =>
      simp only [hu, wrapfsInodeTest, decide_eq_true_eq] at htest
      rw [InodeHash.lowerOf, hu]
      exact htest

/-- A search that finds nothing: no inode has the lower inode. -/
theorem findInode_eq_none {h : InodeHash ι} (hfresh : ∀ u, h.next ≤ u → h.inodes u = none)
    {lower : ι} (hfind : findInode h lower = none) (u : ℕ) : h.lowerOf u ≠ some lower := by
  intro hu
  rcases Nat.lt_or_ge u h.next with hlt | hge
  · have htest := List.find?_eq_none.mp hfind u (List.mem_range.mpr hlt)
    cases hinode : h.inodes u with
    | none =>
        rw [InodeHash.lowerOf, hinode] at hu
        cases hu
    | some inode =>
        rw [InodeHash.lowerOf, hinode] at hu
        have hlower : inode.lower = some lower := hu
        simp [hinode, wrapfsInodeTest, hlower] at htest
  · rw [InodeHash.lowerOf, hfresh u hge] at hu
    cases hu

/-! ## The function as a whole -/

/-- The answers `wrapfs_iget` gets: whether an inode could be allocated, and whether
`igrab` succeeds. -/
structure IgetCalls where
  alloc : Bool
  igrab : Bool

/-- What `wrapfs_iget` comes to: the inode returned, whether it is a new one that
takes its attributes from the lower inode, the hash, and the references taken and
dropped on the lower inode. -/
structure IgetResult (ι : Type) where
  inode : Except Errno ℕ
  created : Bool
  hash : InodeHash ι
  lowerRefs : List (Event ι)

/-- `wrapfs_iget`. -/
def wrapfsIget (h : InodeHash ι) (lower : ι) (c : IgetCalls) : IgetResult ι :=
  match findInode h lower with
  | some u => ⟨.ok u, false, h, []⟩
  | none =>
      if c.alloc then
        let inode := wrapfsInodeSet ⟨none, true⟩ lower
        if c.igrab then
          ⟨.ok h.next, true, h.insertNew ⟨some lower, false⟩, [.acquire lower]⟩
        -- the new inode stays in the hash, `I_NEW` and without a lower inode
        else ⟨.error .ESTALE, false, h.insertNew inode, []⟩
      else ⟨.error .EACCES, false, h, [.release lower]⟩

section Iget

variable {h : InodeHash ι} {lower : ι} {c : IgetCalls}

/-- **All `wrapfs_iget` can do**: find the inode, make it, or fail because of an allocation or
`igrab` and perhaps leave an inode without a lower inode. -/
theorem wrapfsIget_cases (lower : ι) (c : IgetCalls) (hwf : h.Wf) :
    (∃ u, h.lowerOf u = some lower ∧ wrapfsIget h lower c = ⟨.ok u, false, h, []⟩) ∨
      (∀ u, h.lowerOf u ≠ some lower) ∧
        (wrapfsIget h lower c =
            ⟨.ok h.next, true, h.insertNew ⟨some lower, false⟩, [.acquire lower]⟩ ∨
          c ≠ ⟨true, true⟩ ∧ ∃ err hash es, wrapfsIget h lower c = ⟨.error err, false, hash, es⟩ ∧
            (hash = h ∨ hash = h.insertNew ⟨none, true⟩)) := by
  cases hfind : findInode h lower with
  | some u =>
      refine Or.inl ⟨u, findInode_eq_some hfind, ?_⟩
      simp only [wrapfsIget, hfind]
  | none =>
      refine Or.inr ⟨findInode_eq_none hwf.fresh hfind, ?_⟩
      rcases c with ⟨alloc, igrab⟩
      cases alloc with
      | false =>
          refine Or.inr ⟨nofun, .EACCES, h, [.release lower], ?_, Or.inl rfl⟩
          simp [wrapfsIget, hfind]
      | true =>
          cases igrab with
          | false =>
              refine Or.inr ⟨nofun, .ESTALE, h.insertNew ⟨none, true⟩, [], ?_, Or.inr rfl⟩
              simp [wrapfsIget, hfind, wrapfsInodeSet]
          | true =>
              refine Or.inl ?_
              simp [wrapfsIget, hfind]

/-- `wrapfs_iget` keeps the hash well-formed. -/
theorem wf_wrapfsIget (hwf : h.Wf) : (wrapfsIget h lower c).hash.Wf := by
  rcases wrapfsIget_cases lower c hwf with
    ⟨u, -, hcall⟩ | ⟨hnew, hcall | ⟨-, err, hash, es, hcall, rfl | rfl⟩⟩
  · rw [hcall]
    exact hwf
  · rw [hcall]
    refine hwf.insertNew fun x hx => ?_
    cases hx
    exact hnew
  · rw [hcall]
    exact hwf
  · rw [hcall]
    exact hwf.insertNew fun x hx => by cases hx

/-- A call of `wrapfs_iget` leaves every inode its lower inode. -/
theorem lowerOf_wrapfsIget (hwf : h.Wf) {u : ℕ} {x : ι} (hu : h.lowerOf u = some x) :
    (wrapfsIget h lower c).hash.lowerOf u = some x := by
  rcases wrapfsIget_cases lower c hwf with
    ⟨u, -, hcall⟩ | ⟨-, hcall | ⟨-, err, hash, es, hcall, rfl | rfl⟩⟩
  · rw [hcall]
    exact hu
  · rw [hcall]
    exact hwf.lowerOf_insertNew _ hu
  · rw [hcall]
    exact hu
  · rw [hcall]
    exact hwf.lowerOf_insertNew _ hu

/-- `wrapfs_iget` returns an inode if it finds one, or gets all it asks for. -/
theorem wrapfsIget_ok_iff :
    (∃ u, (wrapfsIget h lower c).inode = .ok u) ↔
      (findInode h lower = none → c.alloc = true ∧ c.igrab = true) := by
  unfold wrapfsIget
  cases hfind : findInode h lower with
  | some u => exact iff_of_true ⟨u, rfl⟩ fun hnone => absurd hnone (Option.some_ne_none u)
  | none =>
      cases halloc : c.alloc with
      | false => simp
      | true => cases higrab : c.igrab <;> simp

/-- An inode returned was found or is the new one. -/
theorem wrapfsIget_of_ok {u : ℕ} (hok : (wrapfsIget h lower c).inode = .ok u) :
    findInode h lower = some u ∧ wrapfsIget h lower c = ⟨.ok u, false, h, []⟩ ∨
      u = h.next ∧ wrapfsIget h lower c =
        ⟨.ok h.next, true, h.insertNew ⟨some lower, false⟩, [.acquire lower]⟩ := by
  unfold wrapfsIget at hok ⊢
  cases hfind : findInode h lower with
  | some v =>
      rw [hfind] at hok
      cases hok
      exact Or.inl ⟨rfl, rfl⟩
  | none =>
      simp only [hfind] at hok ⊢
      cases halloc : c.alloc with
      | false => simp [halloc] at hok
      | true =>
          cases higrab : c.igrab with
          | false => simp [halloc, higrab] at hok
          | true =>
              simp only [halloc, higrab, if_true, Except.ok.injEq] at hok
              exact Or.inr ⟨hok.symm, by simp⟩

/-- The inode returned has the lower inode asked for. -/
theorem lowerOf_of_wrapfsIget_ok {u : ℕ} (hok : (wrapfsIget h lower c).inode = .ok u) :
    (wrapfsIget h lower c).hash.lowerOf u = some lower := by
  rcases wrapfsIget_of_ok hok with ⟨hfind, hcall⟩ | ⟨rfl, hcall⟩
  · rw [hcall]
    exact findInode_eq_some hfind
  · rw [hcall]
    exact h.lowerOf_set_self _ _

end Iget

/-! ## The steps -/

/-- How far a call of `wrapfs_iget` has come, and the upper inode it refers to. -/
inductive IgetPhase where
  /-- `iget5_locked` has inserted a new inode. -/
  | inserted (u : ℕ)
  /-- `wrapfs_set_lower_inode` has been done. -/
  | filled (u : ℕ)
  /-- `iget5_locked` has found an inode and waits for its `I_NEW` to clear. -/
  | waiting (u : ℕ)
  | returned (u : ℕ)
  | failed (e : Errno)
  /-- The caller has dropped the inode. -/
  | dropped
  deriving DecidableEq

/-- The inode a call refers to. -/
def IgetPhase.refersTo : IgetPhase → Option ℕ
  | .inserted u => some u
  | .filled u => some u
  | .waiting u => some u
  | .returned u => some u
  | .failed _ => none
  | .dropped => none

/-- The inode a call refers to once its lower inode is stored. -/
def IgetPhase.holds : IgetPhase → Option ℕ
  | .inserted _ => none
  | p => p.refersTo

/-- A call of `wrapfs_iget(sb, lower_inode)`. -/
structure IgetCall (ι : Type) where
  lower : ι
  phase : IgetPhase

/-- The inode hash, and the calls made so far. -/
structure Icache (ι : Type) extends InodeHash ι where
  calls : List (IgetCall ι)

/-- The cache of a super block just set up. -/
def Icache.empty : Icache ι := ⟨.empty, []⟩

/-- The steps.  A call is named by its place in `Icache.calls`. -/
inductive IgetAction (ι : Type) where
  /-- a new call for a lower inode: search, and insertion if nothing is found and
  an inode can be allocated -/
  | iget5 (lower : ι) (alloc : Bool)
  /-- `igrab`, and `wrapfs_set_lower_inode` if it succeeds -/
  | setLower (call : ℕ) (igrab : Bool)
  | unlockNew (call : ℕ)
  /-- a waiting call finds `I_NEW` cleared -/
  | wake (call : ℕ)
  | drop (call : ℕ)
  | evict (u : ℕ)

/-- Store inode `u`. -/
def Icache.setInode (s : Icache ι) (u : ℕ) (inode : Option (HashedInode ι)) : Icache ι :=
  { s with toInodeHash := s.set u inode }

/-- Record the new phase of a call. -/
def Icache.setPhase (s : Icache ι) (i : ℕ) (lower : ι) (p : IgetPhase) : Icache ι :=
  { s with calls := s.calls.set i ⟨lower, p⟩ }

/-- The atomic step of `iget5_locked`. -/
def iget5Step (s : Icache ι) (lower : ι) (alloc : Bool) : Icache ι :=
  match findInode s.toInodeHash lower with
  | some u => { s with calls := s.calls ++ [⟨lower, .waiting u⟩] }
  | none =>
      if alloc then
        { s.insertNew (wrapfsInodeSet ⟨none, true⟩ lower) with
          calls := s.calls ++ [⟨lower, .inserted s.next⟩] }
      else { s with calls := s.calls ++ [⟨lower, .failed .EACCES⟩] }

/-- The step after the insertion. -/
def setLowerStep (s : Icache ι) (i : ℕ) (igrab : Bool) : Except Fault (Icache ι) :=
  match s.calls[i]? with
  | some ⟨lower, .inserted u⟩ =>
      match s.inodes u with
      | none => .error .badPointer
      | some inode =>
          if igrab then
            .ok ((s.setInode u (some { inode with lower := some lower })).setPhase i lower
              (.filled u))
          -- the new inode stays in the hash, `I_NEW` and without a lower inode
          else .ok (s.setPhase i lower (.failed .ESTALE))
  | _ => .error .blocked

/-- `unlock_new_inode`, and the return of the call. -/
def unlockNewStep (s : Icache ι) (i : ℕ) : Except Fault (Icache ι) :=
  match s.calls[i]? with
  | some ⟨lower, .filled u⟩ =>
      match s.inodes u with
      | none => .error .badPointer
      | some inode =>
          .ok ((s.setInode u (some { inode with isNew := false })).setPhase i lower
            (.returned u))
  | _ => .error .blocked

/-- The return of a call that found its inode. -/
def wakeStep (s : Icache ι) (i : ℕ) : Except Fault (Icache ι) :=
  match s.calls[i]? with
  | some ⟨lower, .waiting u⟩ =>
      match s.inodes u with
      | none => .error .badPointer
      | some inode =>
          if inode.isNew then .error .blocked else .ok (s.setPhase i lower (.returned u))
  | _ => .error .blocked

/-- The caller is done with the inode. -/
def dropStep (s : Icache ι) (i : ℕ) : Except Fault (Icache ι) :=
  match s.calls[i]? with
  | some ⟨lower, .returned _⟩ => .ok (s.setPhase i lower .dropped)
  | _ => .error .blocked

/-- `wrapfs_evict_inode`, for an inode no call refers to. -/
def evictStep (s : Icache ι) (u : ℕ) : Except Fault (Icache ι) :=
  match s.inodes u with
  | none => .error .blocked
  | some inode =>
      if inode.isNew ∨ ∃ c ∈ s.calls, c.phase.refersTo = some u then .error .blocked
      else .ok (s.setInode u none)

/-- One step. -/
def igetStep (s : Icache ι) : IgetAction ι → Except Fault (Icache ι)
  | .iget5 lower alloc => .ok (iget5Step s lower alloc)
  | .setLower i igrab => setLowerStep s i igrab
  | .unlockNew i => unlockNewStep s i
  | .wake i => wakeStep s i
  | .drop i => dropStep s i
  | .evict u => evictStep s u

/-! ## A call alone -/

/-- The steps a call takes when no other step comes between them. -/
def igetAlone (s : Icache ι) (lower : ι) (c : IgetCalls) : List (IgetAction ι) :=
  match findInode s.toInodeHash lower with
  | some _ => [.iget5 lower c.alloc, .wake s.calls.length]
  | none =>
      if c.alloc then
        if c.igrab then
          [.iget5 lower true, .setLower s.calls.length true, .unlockNew s.calls.length]
        else [.iget5 lower true, .setLower s.calls.length false]
      else [.iget5 lower false]

/-- A call whose steps run without others between them leaves the hash as
`wrapfs_iget` does. -/
theorem run_igetAlone (s : Icache ι) (lower : ι) (c : IgetCalls)
    (hnew : ∀ u inode, s.inodes u = some inode → inode.lower = some lower →
      inode.isNew = false) :
    ∃ s', run igetStep s (igetAlone s lower c) = .ok s' ∧
      s'.toInodeHash = (wrapfsIget s.toInodeHash lower c).hash := by
  unfold igetAlone wrapfsIget
  cases hfind : findInode s.toInodeHash lower with
  | some u =>
      have hlower := findInode_eq_some hfind
      obtain ⟨inode, hu, hinode⟩ := Option.bind_eq_some_iff.mp hlower
      have hold : inode.isNew = false := hnew u inode hu hinode
      set s₁ : Icache ι := { s with calls := s.calls ++ [⟨lower, .waiting u⟩] } with hs₁
      have hfirst : igetStep s (.iget5 lower c.alloc) = .ok s₁ := by
        simp [igetStep, iget5Step, hfind, hs₁]
      have hlast : igetStep s₁ (.wake s.calls.length) =
          .ok (s₁.setPhase s.calls.length lower (.returned u)) := by
        simp [igetStep, wakeStep, hs₁, hu, hold]
      exact ⟨_, (run_cons_of_ok hfirst _).trans (run_cons_of_ok hlast []), rfl⟩
  | none =>
      cases halloc : c.alloc with
      | false =>
          refine ⟨iget5Step s lower false, rfl, ?_⟩
          simp [iget5Step, hfind]
      | true =>
          set s₁ : Icache ι := { s.insertNew ⟨none, true⟩ with
            calls := s.calls ++ [⟨lower, .inserted s.next⟩] } with hs₁
          have hfirst : igetStep s (.iget5 lower true) = .ok s₁ := by
            simp [igetStep, iget5Step, hfind, hs₁, wrapfsInodeSet]
          have hcall : s₁.calls[s.calls.length]? = some ⟨lower, .inserted s.next⟩ := by
            simp [hs₁]
          have hinode : s₁.inodes s.next = some ⟨none, true⟩ := s.set_self _ _
          cases higrab : c.igrab with
          | false =>
              have hlast : igetStep s₁ (.setLower s.calls.length false) =
                  .ok (s₁.setPhase s.calls.length lower (.failed .ESTALE)) := by
                simp [igetStep, setLowerStep, hcall, hinode]
              exact ⟨_, (run_cons_of_ok hfirst _).trans (run_cons_of_ok hlast []), rfl⟩
          | true =>
              set s₂ : Icache ι := (s₁.setInode s.next (some ⟨some lower, true⟩)).setPhase
                s.calls.length lower (.filled s.next) with hs₂
              have hsecond : igetStep s₁ (.setLower s.calls.length true) = .ok s₂ := by
                simp [igetStep, setLowerStep, hcall, hinode, hs₂]
              have hcall₂ : s₂.calls[s.calls.length]? = some ⟨lower, .filled s.next⟩ := by
                simp [hs₂, hs₁, Icache.setPhase, Icache.setInode]
              have hinode₂ : s₂.inodes s.next = some ⟨some lower, true⟩ := s₁.set_self _ _
              have hlast : igetStep s₂ (.unlockNew s.calls.length) =
                  .ok ((s₂.setInode s.next (some ⟨some lower, false⟩)).setPhase
                    s.calls.length lower (.returned s.next)) := by
                simp [igetStep, unlockNewStep, hcall₂, hinode₂]
              refine ⟨_, (run_cons_of_ok hfirst _).trans
                ((run_cons_of_ok hsecond _).trans (run_cons_of_ok hlast [])), ?_⟩
              show (s₁.set s.next _).set s.next _ = s.insertNew ⟨some lower, false⟩
              simp only [hs₁, InodeHash.insertNew, InodeHash.set, Function.update_idem]

/-! ## The condition -/

/-- The condition: `iget5_locked` runs for a lower inode only while no other call for
it is between its insertion and its `wrapfs_set_lower_inode`. -/
def NoOpenInsertion (s : Icache ι) : IgetAction ι → Prop
  | .iget5 lower _ => ∀ c ∈ s.calls, c.lower = lower → ∀ u, c.phase ≠ .inserted u
  | _ => True

/-! ## The invariant -/

/-- Call `i` is for `lower` and has inserted `u`. -/
def Icache.Inserting (s : Icache ι) (i : ℕ) (lower : ι) (u : ℕ) : Prop :=
  s.calls[i]? = some (IgetCall.mk lower (.inserted u))

/-- What every step that meets the condition keeps. -/
structure IcacheInv (s : Icache ι) : Prop extends s.toInodeHash.Wf where
  /-- An inserted inode is in the hash without a lower inode, and no inode has the
  lower inode it is for. -/
  pending : ∀ i lower u, s.Inserting i lower u →
    s.inodes u ≠ none ∧ s.lowerOf u = none ∧ ∀ v, s.lowerOf v ≠ some lower
  /-- Insertions in progress are for different lower inodes and of different upper
  ones. -/
  apart : ∀ i j lower lower' u v, s.Inserting i lower u →
    s.Inserting j lower' v → lower = lower' ∨ u = v → i = j
  /-- Every other call refers to an inode of its own lower inode. -/
  held : ∀ c ∈ s.calls, ∀ u, c.phase.holds = some u → s.lowerOf u = some c.lower

omit [DecidableEq ι] in
/-- The invariant holds of the empty cache. -/
theorem icacheInv_empty : IcacheInv (.empty : Icache ι) := by
  refine ⟨InodeHash.wf_empty, fun i lower u hi => ?_, fun i j lower lower' u v hi => ?_,
    fun c hc => ?_⟩
  · cases hi
  · cases hi
  · cases hc

section Steps

variable {s s' : Icache ι}

/-- An entry of the list of calls after one of them has moved on. -/
theorem getElem?_set_cases {α : Type*} {l : List α} {i j : ℕ} {a b : α}
    (h : (l.set i a)[j]? = some b) : (j = i ∧ b = a) ∨ (j ≠ i ∧ l[j]? = some b) := by
  by_cases hj : j = i
  · subst hj
    rw [List.getElem?_set_self'] at h
    left
    cases hl : l[j]? with
    | none =>
        rw [hl] at h
        cases h
    | some x =>
        rw [hl] at h
        exact ⟨rfl, (Option.some.inj h).symm⟩
  · rw [List.getElem?_set_ne (Ne.symm hj)] at h
    exact Or.inr ⟨hj, h⟩

/-- An entry of the list of calls after a new one has come. -/
theorem getElem?_concat_cases {α : Type*} {l : List α} {j : ℕ} {a b : α}
    (h : (l ++ [a])[j]? = some b) : (j = l.length ∧ b = a) ∨ l[j]? = some b := by
  rcases Nat.lt_or_ge j l.length with hlt | hge
  · rw [List.getElem?_append_left hlt] at h
    exact Or.inr h
  · rw [List.getElem?_append_right hge] at h
    cases hd : j - l.length with
    | zero =>
        rw [hd] at h
        exact Or.inl ⟨by omega, (Option.some.inj h).symm⟩
    | succ n =>
        rw [hd] at h
        simp at h

omit [DecidableEq ι] in
/-- A call may move on to any phase past the insertion whose inode has its lower
inode. -/
theorem IcacheInv.setPhase (h : IcacheInv s) {i : ℕ} {lower : ι} {p : IgetPhase}
    (hp : ∀ u, p ≠ .inserted u) (hholds : ∀ u, p.holds = some u → s.lowerOf u = some lower) :
    IcacheInv (s.setPhase i lower p) := by
  -- an insertion in progress afterwards was in progress before
  have hold : ∀ {j m u}, (s.setPhase i lower p).Inserting j m u → s.Inserting j m u := by
    intro j m u hj
    rcases getElem?_set_cases hj with ⟨-, heq⟩ | ⟨-, hj'⟩
    · exact absurd (congrArg IgetCall.phase heq).symm (hp u)
    · exact hj'
  refine ⟨h.toWf, fun j m u hj => h.pending j m u (hold hj),
    fun j j' m m' u v hj hj' => h.apart j j' m m' u v (hold hj) (hold hj'), fun c hc u hu => ?_⟩
  rcases List.mem_or_eq_of_mem_set hc with hc | rfl
  · exact h.held c hc u hu
  · exact hholds u hu

omit [DecidableEq ι] in
/-- A new call may be added in any phase but insertion whose inode has its lower
inode. -/
theorem IcacheInv.addCall (h : IcacheInv s) {lower : ι} {p : IgetPhase}
    (hp : ∀ u, p ≠ .inserted u) (hholds : ∀ u, p.holds = some u → s.lowerOf u = some lower) :
    IcacheInv { s with calls := s.calls ++ [⟨lower, p⟩] } := by
  have hold : ∀ {j m u}, (s.calls ++ [⟨lower, p⟩])[j]? = some (IgetCall.mk m (.inserted u)) →
      s.Inserting j m u := by
    intro j m u hj
    rcases getElem?_concat_cases hj with ⟨-, heq⟩ | hj'
    · exact absurd (congrArg IgetCall.phase heq).symm (hp u)
    · exact hj'
  refine ⟨h.toWf, fun j m u hj => h.pending j m u (hold hj),
    fun j j' m m' u v hj hj' => h.apart j j' m m' u v (hold hj) (hold hj'), fun c hc u hu => ?_⟩
  rcases List.mem_append.mp hc with hc | hc
  · exact h.held c hc u hu
  · obtain rfl := List.mem_singleton.mp hc
    exact hholds u hu

/-- The insertion: it needs that no other insertion for the lower inode is open. -/
theorem IcacheInv.insert (h : IcacheInv s) {lower : ι}
    (hnone : findInode s.toInodeHash lower = none)
    (hcond : ∀ c ∈ s.calls, c.lower = lower → ∀ u, c.phase ≠ .inserted u) :
    IcacheInv { s.insertNew ⟨none, true⟩ with
      calls := s.calls ++ [⟨lower, .inserted s.next⟩] } := by
  -- the new inode has no lower inode, as its number had before
  have hlowerOf : ∀ u, (s.insertNew ⟨none, true⟩).lowerOf u = s.lowerOf u := by
    intro u
    by_cases hu : u = s.next
    · subst hu
      have hfresh : s.lowerOf s.next = none := by
        rw [InodeHash.lowerOf, h.fresh s.next le_rfl]
        rfl
      rw [hfresh]
      exact s.lowerOf_set_self _ _
    · exact s.lowerOf_set_of_ne hu _
  have hused : ∀ {j m u}, s.Inserting j m u → u ≠ s.next := by
    rintro j m u hj rfl
    exact (h.pending j m s.next hj).1 (h.fresh s.next le_rfl)
  refine ⟨h.toWf.insertNew nofun, fun j m u hj => ?_,
    fun j j' m m' u v hj hj' hor => ?_, fun c hc u hu => ?_⟩
  · rcases getElem?_concat_cases hj with ⟨-, heq⟩ | hj'
    · cases heq
      refine ⟨?_, ?_, fun v => ?_⟩
      · show (s.set s.next _).inodes s.next ≠ none
        rw [InodeHash.set_self]
        exact Option.some_ne_none _
      · show (s.insertNew ⟨none, true⟩).lowerOf s.next = none
        exact s.lowerOf_set_self _ _
      · show (s.insertNew ⟨none, true⟩).lowerOf v ≠ some lower
        rw [hlowerOf]
        exact findInode_eq_none h.fresh hnone v
    · obtain ⟨hsome, hlower, hother⟩ := h.pending j m u hj'
      refine ⟨?_, (hlowerOf u).trans hlower, fun v => ?_⟩
      · show (s.set s.next _).inodes u ≠ none
        rw [s.set_of_ne (hused hj')]
        exact hsome
      · show (s.insertNew ⟨none, true⟩).lowerOf v ≠ some m
        rw [hlowerOf]
        exact hother v
  · rcases getElem?_concat_cases hj with ⟨rfl, heq⟩ | hj₀
    · rcases getElem?_concat_cases hj' with ⟨rfl, -⟩ | hj₀'
      · rfl
      · cases heq
        rcases hor with rfl | rfl
        · exact absurd rfl (hcond _ (List.mem_of_getElem? hj₀') rfl v)
        · exact absurd rfl (hused hj₀')
    · rcases getElem?_concat_cases hj' with ⟨rfl, heq'⟩ | hj₀'
      · cases heq'
        rcases hor with rfl | rfl
        · exact absurd rfl (hcond _ (List.mem_of_getElem? hj₀) rfl u)
        · exact absurd rfl (hused hj₀)
      · exact h.apart j j' m m' u v hj₀ hj₀' hor
  · show (s.insertNew ⟨none, true⟩).lowerOf u = some c.lower
    rw [hlowerOf]
    rcases List.mem_append.mp hc with hc | hc
    · exact h.held c hc u hu
    · obtain rfl := List.mem_singleton.mp hc
      cases hu

omit [DecidableEq ι] in
/-- Storing the lower inode into an inserted inode. -/
theorem IcacheInv.fill (h : IcacheInv s) {i u : ℕ} {lower : ι} {inode : HashedInode ι}
    (hi : s.Inserting i lower u) :
    IcacheInv ((s.setInode u (some { inode with lower := some lower })).setPhase i lower
      (.filled u)) := by
  obtain ⟨hsome, hlower, hother⟩ := h.pending i lower u hi
  set g := s.set u (some { inode with lower := some lower }) with hg
  have hself : g.lowerOf u = some lower := s.lowerOf_set_self _ _
  have hne : ∀ {v}, v ≠ u → g.lowerOf v = s.lowerOf v := fun hv => s.lowerOf_set_of_ne hv _
  have hold : ∀ {j m v}, (s.calls.set i ⟨lower, .filled u⟩)[j]? =
      some (IgetCall.mk m (.inserted v)) → j ≠ i ∧ s.Inserting j m v := by
    intro j m v hj
    rcases getElem?_set_cases hj with ⟨-, heq⟩ | ⟨hji, hj'⟩
    · cases heq
    · exact ⟨hji, hj'⟩
  refine ⟨h.toWf.setLower hsome fun x hx v _ => ?_, fun j m v hj => ?_,
    fun j j' m m' v w hj hj' => h.apart j j' m m' v w (hold hj).2 (hold hj').2,
    fun c hc v hv => ?_⟩
  · cases hx
    exact hother v
  · obtain ⟨hji, hj'⟩ := hold hj
    obtain ⟨hsome', hlower', hother'⟩ := h.pending j m v hj'
    have hvu : v ≠ u := fun heq => hji (h.apart j i m lower v u hj' hi (Or.inr heq))
    have hml : m ≠ lower := fun heq => hji (h.apart j i m lower v u hj' hi (Or.inl heq))
    refine ⟨?_, (hne hvu).trans hlower', fun w hw => ?_⟩
    · show g.inodes v ≠ none
      rw [hg, s.set_of_ne hvu]
      exact hsome'
    · by_cases hwu : w = u
      · rw [hwu] at hw
        exact hml (Option.some.inj (hself.symm.trans hw)).symm
      · exact hother' w ((hne hwu).symm.trans hw)
  · rcases List.mem_or_eq_of_mem_set hc with hc | rfl
    · have hheld := h.held c hc v hv
      have hvu : v ≠ u := by
        rintro rfl
        rw [hlower] at hheld
        cases hheld
      exact (hne hvu).trans hheld
    · cases hv
      exact hself

omit [DecidableEq ι] in
/-- A change of an inode that keeps its lower inode. -/
theorem IcacheInv.update (h : IcacheInv s) {u : ℕ} {inode inode' : HashedInode ι}
    (hu : s.inodes u = some inode) (hlower : inode'.lower = inode.lower) :
    IcacheInv (s.setInode u (some inode')) := by
  set g := s.set u (some inode') with hg
  have hlowerOf : ∀ v, g.lowerOf v = s.lowerOf v := by
    intro v
    by_cases hv : v = u
    · subst hv
      rw [hg, InodeHash.lowerOf_set_self, hlower, InodeHash.lowerOf, hu]
      rfl
    · exact s.lowerOf_set_of_ne hv _
  have hlive : ∀ {v}, s.inodes v ≠ none → g.inodes v ≠ none := by
    intro v hlive
    by_cases hv : v = u
    · rw [hv, hg, InodeHash.set_self]
      exact Option.some_ne_none _
    · rwa [hg, s.set_of_ne hv]
  refine ⟨h.toWf.setLower (by rw [hu]; exact Option.some_ne_none _) fun x hx v hv hvx => ?_,
    fun j m v hj => ?_, h.apart, fun c hc v hv => ?_⟩
  · refine hv (h.unique v u x hvx ?_)
    rw [InodeHash.lowerOf, hu, ← hx, hlower]
    rfl
  · obtain ⟨hsome, hnone, hother⟩ := h.pending j m v hj
    refine ⟨hlive hsome, (hlowerOf v).trans hnone, fun w hw => ?_⟩
    exact hother w ((hlowerOf w).symm.trans hw)
  · exact (hlowerOf v).trans (h.held c hc v hv)

omit [DecidableEq ι] in
/-- Dropping an inode no call refers to. -/
theorem IcacheInv.evict (h : IcacheInv s) {u : ℕ}
    (hfree : ∀ c ∈ s.calls, c.phase.refersTo ≠ some u) : IcacheInv (s.setInode u none) := by
  refine ⟨h.toWf.remove u, fun j m v hj => ?_, h.apart, fun c hc v hv => ?_⟩
  · obtain ⟨hsome, hnone, hother⟩ := h.pending j m v hj
    have hvu : v ≠ u := by
      rintro rfl
      exact hfree _ (List.mem_of_getElem? hj) rfl
    refine ⟨?_, (s.lowerOf_set_of_ne hvu _).trans hnone, fun w hw => ?_⟩
    · show (s.set u none).inodes v ≠ none
      rw [s.set_of_ne hvu]
      exact hsome
    · exact hother w (InodeHash.lowerOf_set_none hw).2
  · have hvu : v ≠ u := by
      rintro rfl
      refine hfree c hc ?_
      cases hphase : c.phase with
      | inserted w =>
          rw [hphase] at hv
          cases hv
      | filled w | waiting w | returned w | failed e | dropped =>
          rw [hphase] at hv
          exact hv
    exact (s.lowerOf_set_of_ne hvu _).trans (h.held c hc v hv)

/-- **One step.**  Every step that meets the condition keeps the invariant. -/
theorem IcacheInv.step (h : IcacheInv s) {a : IgetAction ι} (ha : NoOpenInsertion s a)
    (hstep : igetStep s a = .ok s') : IcacheInv s' := by
  cases a with
  | iget5 lower alloc =>
      cases hstep
      unfold iget5Step
      split
      · rename_i u hfound
        refine h.addCall (fun _ => nofun) fun v hv => ?_
        cases hv
        exact findInode_eq_some hfound
      · rename_i hnone
        split
        · exact h.insert hnone ha
        · exact h.addCall (fun _ => nofun) fun v hv => by cases hv
  | setLower i igrab =>
      simp only [igetStep, setLowerStep] at hstep
      split at hstep
      · rename_i lower u hi
        cases hinode : s.inodes u with
        | none =>
            rw [hinode] at hstep
            cases hstep
        | some inode =>
            rw [hinode] at hstep
            cases igrab with
            | true =>
                cases hstep
                exact h.fill hi
            | false =>
                cases hstep
                exact h.setPhase (fun _ => nofun) fun v hv => by cases hv
      · cases hstep
  | unlockNew i =>
      simp only [igetStep, unlockNewStep] at hstep
      split at hstep
      · rename_i lower u hi
        cases hinode : s.inodes u with
        | none =>
            rw [hinode] at hstep
            cases hstep
        | some inode =>
            rw [hinode] at hstep
            cases hstep
            have hupdate : IcacheInv (s.setInode u (some { inode with isNew := false })) :=
              h.update hinode rfl
            refine hupdate.setPhase (fun _ => nofun) fun v hv => ?_
            cases hv
            exact hupdate.held _ (List.mem_of_getElem? hi) u rfl
      · cases hstep
  | wake i =>
      simp only [igetStep, wakeStep] at hstep
      split at hstep
      · rename_i lower u hi
        cases hinode : s.inodes u with
        | none =>
            rw [hinode] at hstep
            cases hstep
        | some inode =>
            simp only [hinode] at hstep
            split at hstep
            · cases hstep
            · cases hstep
              refine h.setPhase (fun _ => nofun) fun v hv => ?_
              cases hv
              exact h.held _ (List.mem_of_getElem? hi) u rfl
      · cases hstep
  | drop i =>
      simp only [igetStep, dropStep] at hstep
      split at hstep
      · cases hstep
        exact h.setPhase (fun _ => nofun) fun v hv => by cases hv
      · cases hstep
  | evict u =>
      simp only [igetStep, evictStep] at hstep
      split at hstep
      · cases hstep
      · split at hstep
        · cases hstep
        · rename_i hfree
          cases hstep
          exact h.evict fun c hc hu => hfree (Or.inr ⟨c, hc, hu⟩)

end Steps

/-! ## Runs -/

/-- **One upper inode for a lower inode.**  In every run of any number of calls,
drops and evictions in which `iget5_locked` never runs for a lower inode while
another call's insertion for it is open, no two inodes of the cache have the same
lower inode, and the calls that have returned an inode for the same lower inode have
returned the same one. -/
theorem one_inode_per_lower {as : List (IgetAction ι)} {s : Icache ι}
    (hcond : Along igetStep NoOpenInsertion .empty as)
    (hrun : run igetStep .empty as = .ok s) :
    (∀ u v lower, s.lowerOf u = some lower → s.lowerOf v = some lower → u = v) ∧
      ∀ c ∈ s.calls, ∀ c' ∈ s.calls, ∀ u v, c.phase = .returned u → c'.phase = .returned v →
        c.lower = c'.lower → u = v := by
  have hinv : IcacheInv s := by
    refine Along.invariant ?_ hcond icacheInv_empty hrun
    intro s a s' ha h hstep
    exact h.step ha hstep
  refine ⟨hinv.unique, fun c hc c' hc' u v hu hv hlower => ?_⟩
  have hcu : s.lowerOf u = some c.lower := hinv.held c hc u (by rw [hu]; rfl)
  have hcv : s.lowerOf v = some c'.lower := hinv.held c' hc' v (by rw [hv]; rfl)
  exact hinv.unique u v c.lower hcu (by rw [hcv, hlower])

/-- Two links of lower inode `7` looked up, the second when the first call has stored
the lower inode but not yet returned. -/
def serialLookups : List (IgetAction ℕ) :=
  [.iget5 7 true, .setLower 0 true, .iget5 7 true, .unlockNew 0, .wake 1]

/-- The second call finds the inode of the first. -/
theorem one_inode_per_lower_serial :
    ∃ s, run igetStep .empty serialLookups = .ok s ∧
      s.calls.map IgetCall.phase = [.returned 0, .returned 0] ∧
      ∀ u v lower, s.lowerOf u = some lower → s.lowerOf v = some lower → u = v := by
  have hcond : Along igetStep NoOpenInsertion .empty serialLookups := by
    refine ⟨fun c hc => ?_, fun s hs => ?_⟩
    · cases hc
    · cases hs
      refine ⟨trivial, fun s hs => ?_⟩
      cases hs
      refine ⟨fun c hc _ u hu => ?_, fun s hs => ⟨trivial, fun s _ => ⟨trivial, fun _ _ => trivial⟩⟩⟩
      obtain rfl := List.mem_singleton.mp hc
      cases hu
  exact ⟨_, rfl, rfl, (one_inode_per_lower hcond rfl).1⟩

/-- Two links of lower inode `7` looked up at the same time: both searches run before
either lower inode is stored, and the calls return two inodes for one lower inode. -/
theorem two_inodes_for_one_lower :
    ∃ s, run igetStep (.empty : Icache ℕ)
        [.iget5 7 true, .iget5 7 true, .setLower 0 true, .setLower 1 true,
          .unlockNew 0, .unlockNew 1] = .ok s ∧
      s.calls.map IgetCall.lower = [7, 7] ∧
      s.calls.map IgetCall.phase = [.returned 0, .returned 1] ∧
      s.lowerOf 0 = some 7 ∧ s.lowerOf 1 = some 7 :=
  ⟨_, rfl, rfl, rfl, rfl, rfl⟩

end Wrapfs
