import Mathlib
import Wrapfs.Namespace.Vfs

/-!
# Lookups keep the mirror

The walk to the last component keeps the mirror invariant, leaves everything there was in place,
and ends in a hashed dentry of that name or, if a file is about to be made there, in a negative
dentry over a negative lower dentry of that name.

## A dentry on its way

`Pending` is what the two halves of an operation share: a dentry that has been allocated for a
name no hashed dentry has, and is not hashed yet.  The lookup starts with one, and an operation
that makes a file goes on with one (`PendingAt`, with the lower dentry it is over).

Two facts about pending dentries carry the module.  A lower entry of the name is mirrored by no
hashed dentry (`Pending.entry_new`), because a hashed dentry over it would have the name, and none
has: this is where it matters that the VFS calls `wrapfs_lookup` only after `d_lookup` has found
nothing.  And the entry is neither above the directory the mount starts from nor that directory
itself (`Pending.entry_outside`), because its lower parent is below it.  With these
`MirrorInv.interpose` can hash the dentry.

## What a walk leaves in place

`GrowsBut d` is the frame: every dentry but `d`, every lower dentry there was and the lower inode
of every inode is as it was.  New inodes may have come, and new lower dentries, all of them
negative.  The second half of an operation is about dentries that were found earlier, by an
earlier walk in the case of a rename, and the frame is what keeps them found (`Entry.mono`,
`DirAt.mono`).

## Failures

`WalkedTo` is stated for every outcome.  A failed lookup leaves the dentry pending and perhaps a
new inode behind (`walkedTo_failed`), and neither is seen by the mirror.
-/

namespace Wrapfs.Namespace

open Ledger LowerTree

variable {super lroot : ℕ} {A : Set ℕ} {k k' : TreeCore} {d : ℕ} {e e' : UpperDentry}
  {q : LowerPath}

/-! ## A dentry on its way -/

/-- Dentry `d` is negative and unhashed, its parent is a hashed dentry of a directory
with lower path `q`, and no hashed dentry has its name there. -/
structure Pending (k : TreeCore) (q : LowerPath) (d : ℕ) (e : UpperDentry) : Prop where
  dentry : k.dentries d = some e
  unhashed : e.hashed = false
  negative : e.inode = none
  parent : ∃ ep, k.dentries e.parent = some ep ∧ ep.hashed = true ∧ ep.fsdata = some (some q)
  isDir : k.low.IsDir q.dentry
  miss : ∀ d' e', k.dentries d' = some e' → e'.hashed = true → e'.parent = e.parent →
    e'.name ≠ e.name

/-- The lower dentry `l` is an entry `name` of the lower directory `dir`. -/
def LowerEntry (t : LowerTree) (dir : ℕ) (name : String) (l : ℕ) : Prop :=
  (t.dentries l).hashed = true ∧ (t.dentries l).parent = dir ∧ (t.dentries l).name = name

/-- An unhashed dentry is not the root. -/
theorem MirrorInv.ne_zero (h : MirrorInv super lroot A k) (hd : k.dentries d = some e)
    (hun : e.hashed = false) : d ≠ 0 := by
  rintro rfl
  obtain ⟨er, m, her, hhash, -⟩ := h.root
  obtain rfl : er = e := Option.some.inj (her.symm.trans hd)
  rw [hhash] at hun
  cases hun

/-- The parent is another dentry. -/
theorem Pending.parent_ne (hpend : Pending k q d e) : e.parent ≠ d := by
  obtain ⟨ep, hep, hephash, -⟩ := hpend.parent
  intro heq
  rw [heq, hpend.dentry] at hep
  cases hep
  rw [hpend.unhashed] at hephash
  cases hephash

/-- The path `wrapfs_get_lower_path` returns for the parent. -/
theorem Pending.stored_parent (hpend : Pending k q d e) {path : LowerPath}
    (hpath : k.stored e.parent = some path) : path = q := by
  obtain ⟨ep, hep, -, hq⟩ := hpend.parent
  obtain ⟨ep', hep', hpath⟩ := Core.stored_eq_some.mp hpath
  rw [hep] at hep'
  cases hep'
  rw [hq] at hpath
  cases hpath
  rfl

section Pending

variable (h : MirrorInv super lroot A k) (hpend : Pending k q d e)

include h hpend

/-- The parent is in the mount. -/
theorem Pending.parent_outside : q.dentry ∉ A := by
  obtain ⟨ep, hep, -, hq⟩ := hpend.parent
  exact h.outside e.parent ep q hep hq

/-- The entries of the parent are not above the root of the mount, nor the root. -/
theorem Pending.entry_outside {l : ℕ} (hhash : (k.low.dentries l).hashed = true)
    (hparent : (k.low.dentries l).parent = q.dentry) : l ∉ A ∧ l ≠ lroot := by
  constructor
  · intro hl
    exact hpend.parent_outside h (hparent ▸ h.tree.above l (Or.inl hl) hhash)
  · intro hl
    exact hpend.parent_outside h (hparent ▸ h.tree.above l (Or.inr hl) hhash)

/-- No hashed dentry has the entry of the name as its lower dentry. -/
theorem Pending.entry_new {l : ℕ} (hl : LowerEntry k.low q.dentry e.name l) {d' : ℕ}
    {p' : LowerPath} (hd' : k.dentries d' = some e') (hhash' : e'.hashed = true)
    (hp' : e'.fsdata = some (some p')) : p'.dentry ≠ l := by
  obtain ⟨hhash, hparent, hname⟩ := hl
  intro heq
  by_cases hd0 : d' = 0
  · obtain ⟨er, m, her, -, -, hr⟩ := h.root
    rw [hd0, her] at hd'
    cases hd'
    rw [hr] at hp'
    cases hp'
    exact (hpend.entry_outside h hhash hparent).2 heq.symm
  · -- its name and parent are those looked up, so it would have been found
    obtain ⟨p'', ep', q', hp'', hep', hephash', hq', hname', hparent', -⟩ :=
      h.mirror d' e' hd' hhash' hd0
    rw [hp'] at hp''
    cases hp''
    rw [heq, hname] at hname'
    rw [heq, hparent] at hparent'
    obtain ⟨ep, hep, hephash, hq⟩ := hpend.parent
    have hsame : e'.parent = e.parent :=
      h.inj e'.parent e.parent ep' ep q' q hep' hep hephash' hephash hq' hq hparent'.symm
    exact hpend.miss d' e' hd' hhash' hsame hname'.symm

/-- The dentry may change as long as it stays negative and unhashed. -/
theorem MirrorInv.setPending (hun : e'.hashed = false) (hneg : e'.inode = none)
    (hout : ∀ p, e'.fsdata = some (some p) → p.dentry ∉ A) :
    MirrorInv super lroot A (k.setDentry d (some e')) := by
  refine h.setUnhashed (h.ne_zero hpend.dentry hpend.unhashed) (h.lt hpend.dentry)
    (h.no_child fun e₁ he₁ => ?_) fun e₁ he₁ => ?_
  · obtain rfl : e = e₁ := Option.some.inj (hpend.dentry.symm.trans he₁)
    exact hpend.unhashed
  · cases he₁
    refine ⟨hun, ⟨fun hhash => ?_, fun u hu => ?_⟩, hout⟩
    · rw [hun] at hhash
      cases hhash
    · rw [hneg] at hu
      cases hu

/-- **Interposition.**  The dentry becomes hashed over the lower entry of its name,
with an inode of its lower inode. -/
theorem MirrorInv.interpose {hash : InodeHash LowerInode} (hwf : hash.Wf)
    (hkeep : ∀ u x, k.hash.lowerOf u = some x → hash.lowerOf u = some x) {p : LowerPath}
    (hl : LowerEntry k.low q.dentry e.name p.dentry) {x : LowerInode} {u : ℕ}
    (hx : (k.low.dentries p.dentry).inode = some x) (hsb : x.sb = super)
    (hu : hash.lowerOf u = some x) (hname : e'.name = e.name) (hparent : e'.parent = e.parent)
    (hhash : e'.hashed = true) (hinode : e'.inode = some u)
    (hp : e'.fsdata = some (some p)) :
    MirrorInv super lroot A ((k.setHash hash).setDentry d (some e')) := by
  have hset : MirrorInv super lroot A (k.setHash hash) :=
    h.setHash hwf fun _ _ u x _ _ hlower => hkeep u x hlower
  obtain ⟨ep, hep, hephash, hq⟩ := hpend.parent
  have hparent_ne : e.parent ≠ d := hpend.parent_ne
  refine hset.setHashed (t := k.low) (h.ne_zero hpend.dentry hpend.unhashed)
    (h.lt hpend.dentry) h.tree (fun _ _ hx => hx) (fun _ _ _ _ _ _ _ _ => ⟨rfl, rfl, rfl⟩)
    hhash hp (hpend.entry_outside h hl.1 hl.2.1).1 ⟨fun _ hnone => ?_, fun u' hu' => ?_⟩
    ⟨p, ep, q, hp, ?_, hephash, hq, ?_, hl.2.1, hl.1⟩ (fun e₁ he₁ hhash₁ => ?_)
    fun d' e₁ p' hd' hhash₁ _ hp' => hpend.entry_new h hl hd' hhash₁ hp'
  · rw [hinode] at hnone
    cases hnone
  · rw [hinode] at hu'
    cases hu'
    exact ⟨p, x, hp, hu, hx, hsb⟩
  · rw [hparent, Core.setDentry_of_ne _ hparent_ne]
    exact hep
  · rw [hname]
    exact hl.2.2
  · have he₁ : k.dentries d = some e₁ := he₁
    obtain rfl : e = e₁ := Option.some.inj (hpend.dentry.symm.trans he₁)
    rw [hpend.unhashed] at hhash₁
    cases hhash₁

end Pending

/-- The dentry may change as long as it stays pending. -/
theorem Pending.setSelf (hpend : Pending k q d e) (hun : e'.hashed = false)
    (hneg : e'.inode = none) (hname : e'.name = e.name) (hparent : e'.parent = e.parent) :
    Pending (k.setDentry d (some e')) q d e' := by
  obtain ⟨ep, hep, hephash, hq⟩ := hpend.parent
  have hne : e.parent ≠ d := hpend.parent_ne
  refine ⟨k.setDentry_self d _, hun, hneg, ⟨ep, ?_, hephash, hq⟩, hpend.isDir,
    fun d' e₁ hd' hhash => ?_⟩
  · rw [hparent, k.setDentry_of_ne hne]
    exact hep
  · have hd'd : d' ≠ d := by
      rintro rfl
      rw [k.setDentry_self] at hd'
      cases hd'
      rw [hun] at hhash
      cases hhash
    rw [k.setDentry_of_ne hd'd] at hd'
    rw [hparent, hname]
    exact hpend.miss d' e₁ hd' hhash

/-- The lower tree may change as long as its dentries keep their inodes. -/
theorem Pending.setLow (hpend : Pending k q d e) {t : LowerTree}
    (hkeep : k.low.KeepsInodes t) : Pending (k.setLow t) q d e :=
  ⟨hpend.dentry, hpend.unhashed, hpend.negative, hpend.parent, hkeep.isDir hpend.isDir,
    hpend.miss⟩

/-! ## What a walk leaves in place -/

/-- Everything but dentry `d` is as it was, or more. -/
structure GrowsBut (d : ℕ) (k k' : TreeCore) : Prop where
  dentries : ∀ d', d' ≠ d → k'.dentries d' = k.dentries d'
  next : k.low.next ≤ k'.low.next
  low : ∀ l < k.low.next, k'.low.dentries l = k.low.dentries l
  /-- no lower dentry becomes positive -/
  positive : ∀ l x, (k'.low.dentries l).inode = some x → (k.low.dentries l).inode = some x
  lowerOf : ∀ u x, k.hash.lowerOf u = some x → k'.hash.lowerOf u = some x

theorem growsBut_setDentry (k : TreeCore) (d : ℕ) (o : Option UpperDentry) :
    GrowsBut d k (k.setDentry d o) :=
  ⟨fun _ hne => k.setDentry_of_ne hne o, le_rfl, fun _ _ => rfl, fun _ _ hx => hx,
    fun _ _ hu => hu⟩

theorem GrowsBut.refl (d : ℕ) (k : TreeCore) : GrowsBut d k k :=
  ⟨fun _ _ => rfl, le_rfl, fun _ _ => rfl, fun _ _ hx => hx, fun _ _ hu => hu⟩

theorem GrowsBut.trans {k'' : TreeCore} (h : GrowsBut d k k') (h' : GrowsBut d k' k'') :
    GrowsBut d k k'' :=
  ⟨fun d' hne => (h'.dentries d' hne).trans (h.dentries d' hne), h.next.trans h'.next,
    fun l hl => (h'.low l (hl.trans_le h.next)).trans (h.low l hl),
    fun l x hx => h.positive l x (h'.positive l x hx),
    fun u x hu => h'.lowerOf u x (h.lowerOf u x hu)⟩

/-- `d` is the hashed dentry of a name. -/
def Entry (k : TreeCore) (parent : ℕ) (name : String) (d : ℕ) : Prop :=
  ∃ e, k.dentries d = some e ∧ e.hashed = true ∧ e.parent = parent ∧ e.name = name

/-- A pending dentry over the lower entry of its name. -/
structure PendingAt (k : TreeCore) (q : LowerPath) (d : ℕ) (e : UpperDentry)
    (p : LowerPath) : Prop extends Pending k q d e where
  path : e.fsdata = some (some p)
  entry : LowerEntry k.low q.dentry e.name p.dentry

/-- `d` is a pending dentry of a name over a negative lower dentry. -/
def NegativeEntry (k : TreeCore) (q : LowerPath) (parent : ℕ) (name : String) (d : ℕ) : Prop :=
  ∃ e p, PendingAt k q d e p ∧ e.parent = parent ∧ e.name = name ∧
    (k.low.dentries p.dentry).inode = none

/-- What a walk that succeeds ends in. -/
def Found (k : TreeCore) (q : LowerPath) (parent : ℕ) (name : String) (flags : LookupFlags)
    (d : ℕ) : Prop :=
  Entry k parent name d ∨
    (flags.create || flags.renameTarget) = true ∧ NegativeEntry k q parent name d

/-- The state a lookup of a pending dentry may end in. -/
structure WalkedTo (super lroot : ℕ) (A : Set ℕ) (k : TreeCore) (q : LowerPath) (d : ℕ)
    (e : UpperDentry) (flags : LookupFlags) (err : Option Errno) (k' : TreeCore) : Prop where
  inv : MirrorInv super lroot A k'
  frame : GrowsBut d k k'
  found : err = none → Found k' q e.parent e.name flags d

section Walked

variable {flags : LookupFlags} {err : Option Errno}

/-- Steps before the lookup. -/
theorem WalkedTo.of_growsBut {k₁ : TreeCore} {e₁ : UpperDentry}
    (h : WalkedTo super lroot A k₁ q d e₁ flags err k') (hframe : GrowsBut d k k₁)
    (hparent : e₁.parent = e.parent) (hname : e₁.name = e.name) :
    WalkedTo super lroot A k q d e flags err k' := by
  obtain ⟨hinv, hframe', hfound⟩ := h
  rw [hparent, hname] at hfound
  exact ⟨hinv, hframe.trans hframe', hfound⟩

/-- A lookup that fails before it has done anything. -/
theorem walkedTo_unchanged (h : MirrorInv super lroot A k) (err : Errno) :
    WalkedTo super lroot A k q d e flags (some err) k :=
  ⟨h, .refl d k, nofun⟩

/-- A failed lookup leaves the dentry pending, and perhaps a new inode. -/
theorem walkedTo_failed (h : MirrorInv super lroot A k) (hpend : Pending k q d e)
    {hash : InodeHash LowerInode} (hwf : hash.Wf)
    (hkeep : ∀ u x, k.hash.lowerOf u = some x → hash.lowerOf u = some x)
    (hun : e'.hashed = false) (hneg : e'.inode = none) (hfs : e'.fsdata = some none)
    (err : Errno) :
    WalkedTo super lroot A k q d e flags (some err) ((k.setHash hash).setDentry d (some e')) := by
  have hset : MirrorInv super lroot A (k.setHash hash) :=
    h.setHash hwf fun _ _ u x _ _ hlower => hkeep u x hlower
  have hpend' : Pending (k.setHash hash) q d e :=
    ⟨hpend.dentry, hpend.unhashed, hpend.negative, hpend.parent, hpend.isDir, hpend.miss⟩
  refine ⟨hset.setPending hpend' hun hneg fun p hp => ?_, ?_, nofun⟩
  · rw [hfs] at hp
    cases hp
  · exact ⟨fun d' hne => Core.setDentry_of_ne _ hne _, le_rfl, fun _ _ => rfl,
      fun _ _ hx => hx, hkeep⟩

/-- A lookup of a file that does not exist leaves the dentry over a negative lower
dentry. -/
theorem walkedTo_negative (h : MirrorInv super lroot A k) (hpend : Pending k q d e)
    {p : LowerPath} (hl : LowerEntry k.low q.dentry e.name p.dentry)
    (hneg : (k.low.dentries p.dentry).inode = none)
    (herr : err = none → (flags.create || flags.renameTarget) = true) :
    WalkedTo super lroot A k q d e flags err
      (k.setDentry d (some { e with fsdata := some (some p) })) := by
  refine ⟨h.setPending hpend hpend.unhashed hpend.negative fun p' hp' => ?_,
    growsBut_setDentry k d _, fun hnone => Or.inr ⟨herr hnone,
      { e with fsdata := some (some p) }, p, ⟨?_, rfl, hl⟩, rfl, rfl, hneg⟩⟩
  · cases hp'
    exact (hpend.entry_outside h hl.1 hl.2.1).1
  · exact hpend.setSelf hpend.unhashed hpend.negative rfl rfl

end Walked

/-! ## The code -/

section Code

variable {s : Ns LowerTree LowerInode} (flags : LookupFlags)

/-- The path is stored, the dentry is interposed, or the path is reset. -/
theorem mirror_lookupPositive (h : MirrorInv super lroot A s.toCore)
    (hpend : Pending s.toCore q d e) (hfs : e.fsdata = some none) {path : LowerPath}
    (hwalk : s.low.walk q e.name = .ok path) (c : IgetCalls) :
    Yields (lookupPositive (treeVfs super) d path c) s fun err s' =>
      WalkedTo super lroot A s.toCore q d e flags err s'.toCore := by
  simp only [lookupPositive, pathGet, yields_bind, yields_acquire,
    yields_wrapfsSetLowerPath hpend.dentry hfs]
  set e₁ : UpperDentry := { e with fsdata := some (some path) }
  set t := s.withCore (s.setDentry d (some e₁)) with ht
  have hd : t.dentries d = some e₁ := s.setDentry_self d _
  refine yields_wrapfsInterpose (treeVfs super) hd path c ?_ ?_
  · intro lower err s' hlower hs'
    -- in both cases the path is put and reset, and a new inode may be left over
    obtain ⟨hash, hwf, hkeep, hs'⟩ : ∃ hash : InodeHash LowerInode, hash.Wf ∧
        (∀ u x, s.hash.lowerOf u = some x → hash.lowerOf u = some x) ∧
        s'.toCore = (s.setHash hash).setDentry d (some e₁) := by
      rcases hs' with hs' | hs'
      · exact ⟨s.hash, h.hash, fun _ _ hu => hu, hs'⟩
      · exact ⟨_, wf_wrapfsIget h.hash, fun _ _ hu => lowerOf_wrapfsIget h.hash hu, hs'⟩
    have hd' : s'.dentries d = some e₁ := by
      rw [hs']
      exact Core.setDentry_self _ _ _
    rw [yields_bind]
    refine (yields_wrapfsPutResetLowerPath hd' rfl).mpr ?_
    rw [yields_pure, Ns.withCore_toCore, hs', Core.setDentry_setDentry]
    refine walkedTo_failed h hpend hwf hkeep ?_ ?_ ?_ err
    · exact hpend.unhashed
    · exact hpend.negative
    · rfl
  · intro lower u s' hlower hsb hu hs'
    rw [yields_pure]
    -- what is mounted here is on another super block, so no mount point was crossed
    obtain ⟨l, hl, hpath⟩ := walk_eq_ok hwalk
    have hpath' : path.dentry = l := by
      cases hm : s.low.mounted l with
      | none =>
          rw [hpath, hm]
          rfl
      | some p =>
          obtain ⟨x, hx, hne⟩ := h.tree.mounts l p hm
          rw [hpath, hm] at hlower
          exact absurd hsb (Option.some.inj (hx.symm.trans hlower) ▸ hne)
    have hentry : LowerEntry s.low q.dentry e.name path.dentry := by
      rw [hpath']
      exact dLookup_eq_some hl
    rw [ht, Ns.withCore_toCore] at hs'
    have hcore : s'.toCore = (s.setHash (wrapfsIget s.hash lower c).hash).setDentry d
        (some { e₁ with inode := some u, hashed := true }) :=
      hs'.trans (Core.setDentry_setDentry
        (s.setHash (wrapfsIget s.hash lower c).hash) d (some e₁) _)
    rw [hcore]
    refine ⟨h.interpose hpend (wf_wrapfsIget h.hash)
      (fun _ _ hu => lowerOf_wrapfsIget h.hash hu) hentry hlower hsb
      (lowerOf_of_wrapfsIget_ok hu) rfl rfl rfl rfl rfl, ?_, fun _ => Or.inl ?_⟩
    · exact ⟨fun d' hne => Core.setDentry_of_ne _ hne _, le_rfl, fun _ _ => rfl,
        fun _ _ hx => hx, fun _ _ hu => lowerOf_wrapfsIget h.hash hu⟩
    · exact ⟨_, Core.setDentry_self _ _ _, rfl, rfl, rfl⟩

/-- A negative lower dentry is stored. -/
theorem mirror_setupLower (h : MirrorInv super lroot A s.toCore)
    (hpend : Pending s.toCore q d e) (hfs : e.fsdata = some none) {l : ℕ} (mnt : ℕ)
    (hl : LowerEntry s.low q.dentry e.name l) (hneg : (s.low.dentries l).inode = none) :
    Yields (setupLower d l mnt flags) s fun err s' =>
      WalkedTo super lroot A s.toCore q d e flags err s'.toCore := by
  simp only [setupLower, yields_bind, yields_acquire,
    yields_wrapfsSetLowerPath hpend.dentry hfs, yields_pure]
  refine walkedTo_negative (p := ⟨l, mnt⟩) h hpend hl hneg fun herr => ?_
  by_contra hflags
  rw [if_neg hflags] at herr
  cases herr

/-- A new negative lower dentry is seen by no dentry. -/
theorem MirrorInv.allocLower (h : MirrorInv super lroot A k) (dir : ℕ) (name : String) :
    MirrorInv super lroot A (k.setLow (k.low.dAllocNegative dir name).2) ∧
      k.low.KeepsInodes (k.low.dAllocNegative dir name).2 ∧
      GrowsBut d k (k.setLow (k.low.dAllocNegative dir name).2) := by
  have hfresh : (k.low.dentries k.low.next).inode = none := (h.tree.fresh _ le_rfl).1
  have hold : ∀ {l}, l ≠ k.low.next →
      (k.low.dAllocNegative dir name).2.dentries l = k.low.dentries l :=
    fun hl => k.low.set_of_ne hl _
  have hkeep : k.low.KeepsInodes (k.low.dAllocNegative dir name).2 := by
    intro l x hx
    have hl : l ≠ k.low.next := by
      rintro rfl
      rw [hfresh] at hx
      cases hx
    rw [hold hl]
    exact hx
  refine ⟨h.setLow (h.tree.alloc dir name) hkeep fun d' e' p hd' hhash _ hp => ?_, hkeep,
    fun _ _ => rfl, Nat.le_succ _, fun l hl => hold (Nat.ne_of_lt hl), fun l x hx => ?_,
    fun _ _ hu => hu⟩
  · obtain ⟨x, hx⟩ := h.exists_inode hd' hhash hp
    have hne : p.dentry ≠ k.low.next := by
      intro heq
      rw [heq, hfresh] at hx
      cases hx
    rw [SameEntry, hold hne]
    exact ⟨rfl, rfl, rfl⟩
  · have hne : l ≠ k.low.next := by
      rintro rfl
      rw [Core.setLow_low, dAllocNegative, set_self] at hx
      cases hx
    rwa [Core.setLow_low, hold hne] at hx

/-- There is no such name below: a negative lower dentry is looked for, or made. -/
theorem mirror_lookupNegative (h : MirrorInv super lroot A s.toCore)
    (hpend : Pending s.toCore q d e) (hfs : e.fsdata = some none) {err : Errno}
    (hwalk : s.low.walk q e.name = .error err) (lowerAlloc : Bool) :
    Yields (lookupNegative (treeVfs super) d e.name flags q lowerAlloc) s
      fun err s' => WalkedTo super lroot A s.toCore q d e flags err s'.toCore := by
  simp only [lookupNegative, yields_bind, yields_look]
  cases hfind : (treeVfs super).dLookup s.low q.dentry e.name with
  | some l =>
      simp only [yields_bind, yields_acquire]
      exact mirror_setupLower flags h hpend hfs q.mnt (dLookup_eq_some hfind)
        (walk_eq_error hwalk hfind)
  | none =>
      simp only [yields_ite, yields_bind, yields_changeCore, yields_acquire, yields_pure]
      split
      · obtain ⟨hlow, hkeep, hgrows⟩ := h.allocLower (d := d) q.dentry e.name
        have hentry : LowerEntry (s.low.dAllocNegative q.dentry e.name).2 q.dentry e.name
            s.low.next := by
          simp [LowerEntry, dAllocNegative]
        have hneg : ((s.low.dAllocNegative q.dentry e.name).2.dentries s.low.next).inode =
            none := by
          simp [dAllocNegative]
        refine (mirror_setupLower (s := s.withCore (s.setLow _)) flags hlow (hpend.setLow hkeep) hfs
          q.mnt hentry hneg).mono ?_
        intro err s' hs'
        exact hs'.of_growsBut hgrows rfl rfl
      · exact walkedTo_unchanged h _

/-- **`__wrapfs_lookup`.**  Whatever `vfs_path_lookup` answers but `ENOENT` is passed on. -/
theorem mirror_wrapfsLookupLower (h : MirrorInv super lroot A s.toCore)
    (hpend : Pending s.toCore q d e) (hfs : e.fsdata = some none) (c : LookupCalls) :
    Yields (wrapfsLookupLower (treeVfs super) d flags q c) s fun err s' =>
      WalkedTo super lroot A s.toCore q d e flags err s'.toCore := by
  simp only [wrapfsLookupLower, yields_bind, yields_dentryAt, yields_changeCore]
  intro e₀ he₀
  obtain rfl : e = e₀ := Option.some.inj (hpend.dentry.symm.trans he₀)
  set e₁ : UpperDentry := { e with dOp := true }
  set t := s.withCore (s.setDentry d (some e₁))
  have hpend₁ : Pending t.toCore q d e₁ :=
    hpend.setSelf hpend.unhashed hpend.negative rfl rfl
  have h₁ : MirrorInv super lroot A t.toCore :=
    h.setPending hpend hpend.unhashed hpend.negative fun p hp => by
      rw [show e₁.fsdata = some none from hfs] at hp
      cases hp
  have hback : ∀ {err k'}, WalkedTo super lroot A t.toCore q d e₁ flags err k' →
      WalkedTo super lroot A s.toCore q d e flags err k' :=
    fun hk' => hk'.of_growsBut (growsBut_setDentry s.toCore d _) rfl rfl
  have hparent : e.parent ≠ d := hpend.parent_ne
  rw [yields_ite, if_neg hparent]
  simp only [yields_bind, yields_look, yields_changeCore]
  rcases vfsPathLookup_cases t.low q e.name c.pathLookup with hcall | ⟨err, herr, hcall⟩
  · rw [show (treeVfs super).vfsPathLookup t.low q e.name c.pathLookup = (t.low.walk q e.name, t.low)
      from hcall]
    cases hwalk : t.low.walk q e.name with
    | ok path =>
        refine (mirror_lookupPositive flags h₁ hpend₁ hfs hwalk c.iget).mono ?_
        exact fun err s' hs' => hback hs'
    | error err =>
        simp only [yields_ite]
        split
        · rw [yields_pure]
          exact hback (walkedTo_unchanged h₁ err)
        · refine (mirror_lookupNegative flags h₁ hpend₁ hfs hwalk c.lowerAlloc).mono ?_
          exact fun err s' hs' => hback hs'
  · rw [show (treeVfs super).vfsPathLookup t.low q e.name c.pathLookup = (.error err, t.low)
      from hcall]
    simp only [if_pos herr, yields_pure]
    exact hback (walkedTo_unchanged h₁ err)

/-- With `new_dentry_private_data` before and the attributes after. -/
theorem mirror_lookupUnderParent (h : MirrorInv super lroot A s.toCore)
    (hpend : Pending s.toCore q d e) (parent : ℕ) (c : LookupCalls) :
    Yields (lookupUnderParent (treeVfs super) d parent flags q c) s fun err s' =>
      WalkedTo super lroot A s.toCore q d e flags err s'.toCore := by
  simp only [lookupUnderParent, newDentryPrivateData, yields_bind, yields_ite]
  split
  · simp only [yields_dentryAt, yields_changeCore, yields_bind, yields_pure]
    intro e₀ he₀
    obtain rfl : e = e₀ := Option.some.inj (hpend.dentry.symm.trans he₀)
    set e₁ : UpperDentry := { e with fsdata := some none }
    set t := s.withCore (s.setDentry d (some e₁))
    have hpend₁ : Pending t.toCore q d e₁ :=
      hpend.setSelf hpend.unhashed hpend.negative rfl rfl
    have h₁ : MirrorInv super lroot A t.toCore :=
      h.setPending hpend hpend.unhashed hpend.negative fun p hp => by cases hp
    refine (mirror_wrapfsLookupLower flags h₁ hpend₁ rfl c).mono ?_
    intro err s' hs'
    have hs' := hs'.of_growsBut (growsBut_setDentry s.toCore d _) (e := e) rfl rfl
    cases err with
    | some err =>
        rw [yields_pure]
        exact hs'
    | none =>
        rw [yields_bind]
        refine (Balanced.yields (quiet_copyLookupAttrs (treeVfs super) d parent) s').mono ?_
        intro _ s'' hcore
        rw [yields_pure, hcore]
        exact hs'
  · simp only [yields_pure]
    exact walkedTo_unchanged h _

/-- `wrapfs_lookup` of a new dentry. -/
theorem mirror_wrapfsLookup (h : MirrorInv super lroot A s.toCore)
    (hpend : Pending s.toCore q d e) (c : LookupCalls) :
    Yields (wrapfsLookup (treeVfs super) d (some flags) c) s fun err s' =>
      WalkedTo super lroot A s.toCore q d e flags err s'.toCore := by
  simp only [wrapfsLookup, yields_bind, yields_dentryAt, yields_acquire,
    yields_wrapfsGetLowerPath, yields_wrapfsPutLowerPath, yields_release, yields_pure]
  intro e₀ he₀ path hpath
  obtain rfl : e = e₀ := Option.some.inj (hpend.dentry.symm.trans he₀)
  obtain rfl : path = q := hpend.stored_parent hpath
  exact mirror_lookupUnderParent flags h hpend e.parent c

end Code

/-! ## The walk -/

/-- `dir` is a hashed dentry of a directory with lower path `q`. -/
def DirAt (super : ℕ) (k : TreeCore) (dir : ℕ) (q : LowerPath) : Prop :=
  ∃ e x, k.dentries dir = some e ∧ e.hashed = true ∧ e.fsdata = some (some q) ∧
    (k.low.dentries q.dentry).inode = some x ∧ x.isDir = true ∧ x.sb = super

/-- A directory has a hashed dentry with a lower path. -/
theorem MirrorInv.dirAt (h : MirrorInv super lroot A k) {dir : ℕ}
    (hdir : k.isDirectory dir = true) : ∃ q, DirAt super k dir q := by
  unfold Core.isDirectory Core.lowerInodeOf Core.inodeOf at hdir
  cases he : k.dentries dir with
  | none => simp [he] at hdir
  | some e =>
      cases hu : e.inode with
      | none => simp [he, hu] at hdir
      | some u =>
          obtain ⟨q, x, hq, hlower, hx, hsb⟩ := (h.attached dir e he).2 u hu
          simp only [he, hu, hlower, Option.map_some, Option.getD_some, Option.bind_some,
            Bool.and_eq_true] at hdir
          exact ⟨q, e, x, he, hdir.1, hq, hx, hdir.2, hsb⟩

/-- A positive lower dentry has been numbered. -/
theorem MirrorInv.low_lt (h : MirrorInv super lroot A k) {l : ℕ} {x : LowerInode}
    (hx : (k.low.dentries l).inode = some x) : l < k.low.next := by
  by_contra hge
  rw [(h.tree.fresh l (Nat.le_of_not_lt hge)).1] at hx
  cases hx

section Grows

variable (h : MirrorInv super lroot A k) (hgrows : GrowsBut k.nextDentry k k')

include h hgrows

/-- Dentries there were are kept. -/
theorem GrowsBut.keeps (hd : k.dentries d = some e) : k'.dentries d = some e := by
  rw [hgrows.dentries d (Nat.ne_of_lt (h.lt hd))]
  exact hd

/-- A directory stays one. -/
theorem DirAt.mono {dir : ℕ} (hdir : DirAt super k dir q) : DirAt super k' dir q := by
  obtain ⟨e, x, he, hhash, hq, hx, hrest⟩ := hdir
  refine ⟨e, x, hgrows.keeps h he, hhash, hq, ?_, hrest⟩
  rw [hgrows.low q.dentry (h.low_lt hx)]
  exact hx

/-- An entry stays one. -/
theorem Entry.mono {parent : ℕ} {name : String} (hd : Entry k parent name d) :
    Entry k' parent name d := by
  obtain ⟨e, he, hrest⟩ := hd
  exact ⟨e, hgrows.keeps h he, hrest⟩

end Grows

/-- What `d_lookup` finds, and -/
theorem child_eq_some {parent : ℕ} {name : String} (hd : k.child parent name = some d) :
    Entry k parent name d := by
  have htest := List.find?_some hd
  cases he : k.dentries d with
  | none => simp [he] at htest
  | some e =>
      simp only [he, Bool.and_eq_true, decide_eq_true_eq] at htest
      exact ⟨e, he, htest.1.1, htest.1.2, htest.2⟩

/-- what it means that it finds nothing. -/
theorem MirrorInv.child_eq_none (h : MirrorInv super lroot A k) {parent : ℕ} {name : String}
    (hnone : k.child parent name = none) (hd : k.dentries d = some e) (hhash : e.hashed = true)
    (hparent : e.parent = parent) : e.name ≠ name := by
  have htest := List.find?_eq_none.mp hnone d (List.mem_range.mpr (h.lt hd))
  simpa [hd, hhash, hparent] using htest

/-- `d_alloc` of a dentry for a name that no hashed dentry has. -/
theorem MirrorInv.alloc (h : MirrorInv super lroot A k) {parent : ℕ} {name : String}
    (hdir : DirAt super k parent q) (hnone : k.child parent name = none)
    (hk' : k' = { k.setDentry k.nextDentry (some ⟨name, parent, none, false, false, none⟩) with
      nextDentry := k.nextDentry + 1 }) :
    MirrorInv super lroot A k' ∧
      Pending k' q k.nextDentry ⟨name, parent, none, false, false, none⟩ ∧
      GrowsBut k.nextDentry k k' := by
  have hk' : k' = Core.setDentry { k with nextDentry := k.nextDentry + 1 } k.nextDentry
      (some ⟨name, parent, none, false, false, none⟩) := hk'
  have hself : k'.dentries k.nextDentry = some ⟨name, parent, none, false, false, none⟩ := by
    rw [hk', Core.setDentry_self]
  have hother : ∀ {d'}, d' ≠ k.nextDentry → k'.dentries d' = k.dentries d' := by
    intro d' hne
    rw [hk', Core.setDentry_of_ne _ hne]
  have hlow : k'.low = k.low := by rw [hk', Core.setDentry_low]
  have hgrows : GrowsBut k.nextDentry k k' := by
    rw [hk']
    exact ⟨fun d' hne => Core.setDentry_of_ne _ hne _, le_rfl, fun _ _ => rfl,
      fun _ _ hx => hx, fun _ _ hu => hu⟩
  refine ⟨?_, ⟨hself, rfl, rfl, ?_, ?_, fun d' e' hd' hhash hparent => ?_⟩, hgrows⟩
  · obtain ⟨er, m, her, -⟩ := h.root
    rw [hk']
    refine h.bump.setUnhashed (Nat.ne_of_gt (Nat.zero_lt_of_lt (h.lt her)))
      (Nat.lt_succ_self _) (h.bump.no_child fun e' he' => ?_) fun e' he' => ?_
    · rw [show k.dentries k.nextDentry = none from h.fresh _ le_rfl] at he'
      cases he'
    · cases he'
      exact ⟨rfl, ⟨nofun, nofun⟩, nofun⟩
  · obtain ⟨ep, x, hep, hephash, hq, -⟩ := hdir
    exact ⟨ep, hgrows.keeps h hep, hephash, hq⟩
  · obtain ⟨ep, x, -, -, -, hx, hisDir, -⟩ := hdir
    exact ⟨x, by rw [hlow]; exact hx, hisDir⟩
  · have hne : d' ≠ k.nextDentry := by
      rintro rfl
      rw [hself] at hd'
      cases hd'
      cases hhash
    rw [hother hne] at hd'
    exact h.child_eq_none hnone hd' hhash hparent

/-- What a walk ends in. -/
structure Walked (super lroot : ℕ) (A : Set ℕ) (k : TreeCore) (q : LowerPath) (parent : ℕ)
    (name : String) (flags : LookupFlags) (r : Except Errno ℕ) (k' : TreeCore) : Prop where
  inv : MirrorInv super lroot A k'
  frame : GrowsBut k.nextDentry k k'
  found : ∀ d, r = .ok d → Found k' q parent name flags d

/-- **The walk to the last component** keeps the mirror. -/
theorem mirror_walkTo {s : Ns LowerTree LowerInode}
    (h : MirrorInv super lroot A s.toCore) {parent : ℕ} (hdir : DirAt super s.toCore parent q)
    (name : String) (flags : LookupFlags) (c : WalkCalls) :
    Yields (walkTo super parent name flags c) s fun r s' =>
      Walked super lroot A s.toCore q parent name flags r s'.toCore := by
  simp only [walkTo, yields_bind, yields_look]
  cases hchild : s.child parent name with
  | some d =>
      rw [yields_pure]
      refine ⟨h, .refl _ _, fun d' hd' => ?_⟩
      cases hd'
      exact Or.inl (child_eq_some hchild)
  | none =>
      simp only [yields_ite]
      split
      · simp only [dAlloc, yields_bind, yields_look, yields_changeCore, yields_pure]
        obtain ⟨h₁, hpend, hgrows⟩ := h.alloc hdir hchild rfl
        refine (mirror_wrapfsLookup (s := s.withCore _) flags h₁ hpend c.lookup).mono ?_
        intro err s' hs'
        cases err with
        | some err =>
            rw [yields_pure]
            refine ⟨hs'.inv, hgrows.trans hs'.frame, fun d' hd' => ?_⟩
            cases hd'
        | none =>
            rw [yields_pure]
            refine ⟨hs'.inv, hgrows.trans hs'.frame, fun d' hd' => ?_⟩
            cases hd'
            exact hs'.found rfl
      · rw [yields_pure]
        refine ⟨h, .refl _ _, fun d' hd' => ?_⟩
        cases hd'

end Wrapfs.Namespace
