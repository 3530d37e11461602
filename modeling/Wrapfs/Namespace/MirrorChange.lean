import Mathlib
import Wrapfs.Namespace.MirrorLookup

/-!
# The directory operations keep the mirror

`Wrapfs.Namespace.MirrorInv` says when the upper dentries mirror the lower tree.  An operation
that changes the tree has to change both sides by the same step, and it does so at two moments:
the lower file system makes its change inside the lower call, and the upper dentry follows some
lines later, in `wrapfs_interpose`, in `d_drop` or in the `d_move` of the VFS.  In between the two
sides differ.

This module takes the operations one by one.  There are three kinds of step.

* **A file is made** at a name that had none (`MirrorInv.creation`).  The upper dentry is still
  *pending*, unhashed and with its lower path already stored, so that making the lower file
  disturbs nothing: the invariant speaks of hashed dentries, and the pending one becomes one of
  them only when `wrapfs_interpose` hashes it (`mirror_wrapfsInterpose`).
* **A name is removed** (`MirrorInv.removal`).  The lower dentry is unhashed before the upper one.
  What makes the pair a step is that nothing hashed is below the dentry (`NoChild`), which for a
  directory follows from `vfs_rmdir` having found the lower one empty (`MirrorInv.noChild`).
* **A file gets another name** (`MirrorInv.rename`).  The target may be a pending dentry or a
  hashed one that is replaced; `Target` is what the two have in common, and all that the step
  uses.

Each of these is an instance of the general changes of `Wrapfs.Namespace.MirrorInv`, and none of
them mentions code.

## The code

`MirrorAfter` is the mirror as a postcondition.  What an operation does around its step (locks,
references, copied attributes) touches neither tree and is passed by the rules of
`Wrapfs.Namespace.Rules` and by `MirrorAfter.quiet_bind` and `MirrorAfter.bind_quiet`.  Creation,
`mkdir`, `mknod` and `symlink` share one body, so that `mirror_underLockedParent` is proved once
for what is around their lower call.

A rename is not finished when `wrapfs_rename` returns: the VFS still has to move the upper dentry.
So there is no `mirror_wrapfsRename` but `renamed_wrapfsRename`, which says what has happened to
the lower tree for each answer, and `Wrapfs.Namespace.Mirror` puts the two halves together.
-/

namespace Wrapfs.Namespace

open Ledger LowerTree

variable {super lroot : ℕ} {A : Set ℕ} {k k' : TreeCore} {d : ℕ} {e : UpperDentry}
  {q p : LowerPath}

/-! ## A file is made -/

/-- A negative lower dentry becomes positive. -/
theorem MirrorInv.creation (h : MirrorInv super lroot A k) (hpend : PendingAt k q d e p)
    {dir : Option LowerInode} {t : LowerTree} (ht : k.low.Creation dir p.dentry t) :
    MirrorInv super lroot A (k.setLow t) ∧ PendingAt (k.setLow t) q d e p := by
  obtain ⟨x, y, n, -, -, hneg, a, rfl⟩ := ht
  have hl := hpend.entry
  obtain ⟨hA, hroot⟩ := hpend.entry_outside h hl.1 hl.2.1
  have hv : ∀ z, (k.low.dentries p.dentry).inode = some z → some y = some z := by
    intro z hz
    rw [hneg] at hz
    cases hz
  have hkeep : k.low.KeepsInodes { k.low.instantiate p.dentry y with nextIno := n, attr := a } :=
    keepsInodes_set (v := { k.low.dentries p.dentry with inode := some y }) hv
  have hsame : ∀ l,
      SameEntry k.low { k.low.instantiate p.dentry y with nextIno := n, attr := a } l := by
    intro l
    by_cases hlp : l = p.dentry
    · subst hlp
      simp [SameEntry, instantiate]
    · simp [SameEntry, instantiate, k.low.set_of_ne hlp]
  have hset : TreeInv super lroot A (k.low.instantiate p.dentry y) := by
    refine h.tree.set hA hroot (h.tree.lt hl.1) hv fun z _ _ => ?_
    rw [hl.2.1]
    exact hpend.isDir
  refine ⟨h.setLow ⟨hset.fresh, hset.dir, hset.above, hset.rootOut, hset.inside, hset.mounts⟩
    hkeep fun _ _ p' _ _ _ _ => hsame p'.dentry, hpend.setLow hkeep, hpend.path, ?_⟩
  obtain ⟨hname, hparent, hhash⟩ := hsame p.dentry
  exact ⟨hhash.trans hl.1, hparent.trans hl.2.1, hname.trans hl.2.2⟩

/-! ## A name is removed -/

/-- No hashed dentry is below `d`. -/
def NoChild (k : TreeCore) (d : ℕ) : Prop :=
  ∀ c ec, k.dentries c = some ec → ec.hashed = true → c ≠ 0 → ec.parent ≠ d

/-- A hashed dentry below a dentry is over an entry of its lower dentry. -/
theorem MirrorInv.lower_child (h : MirrorInv super lroot A k) (hd : k.dentries d = some e)
    (hp : e.fsdata = some (some p)) {c : ℕ} {ec : UpperDentry} (hc : k.dentries c = some ec)
    (hhash : ec.hashed = true) (hc0 : c ≠ 0) (hparent : ec.parent = d) :
    ∃ l x, (k.low.dentries l).hashed = true ∧ (k.low.dentries l).inode = some x ∧
      (k.low.dentries l).parent = p.dentry := by
  obtain ⟨pc, ep, q, hpc, hep, -, hq, -, hlparent, hlhash⟩ := h.mirror c ec hc hhash hc0
  rw [hparent, hd] at hep
  cases hep
  rw [hp] at hq
  cases hq
  obtain ⟨x, hx⟩ := h.exists_inode hc hhash hpc
  exact ⟨pc.dentry, x, hlhash, hx, hlparent⟩

/-- No hashed dentry is below one whose lower dentry has no entries. -/
theorem MirrorInv.noChild (h : MirrorInv super lroot A k)
    (hd : k.dentries d = some e) (hp : e.fsdata = some (some p))
    (hempty : k.low.IsDir p.dentry → k.low.nonempty p.dentry = false) : NoChild k d := by
  intro c ec hc hhash hc0 hparent
  obtain ⟨l, x, hlhash, hx, hlparent⟩ := h.lower_child hd hp hc hhash hc0 hparent
  have hdir : k.low.IsDir p.dentry := by
    rw [← hlparent]
    exact h.tree.dir l x hlhash hx
  rw [nonempty_of_child h.tree hlhash hx hlparent] at hempty
  cases hempty hdir

/-- A hashed dentry that is not the root, with its lower path. -/
structure HashedAt (k : TreeCore) (d : ℕ) (e : UpperDentry) (p : LowerPath) : Prop where
  dentry : k.dentries d = some e
  hashed : e.hashed = true
  ne_zero : d ≠ 0
  path : e.fsdata = some (some p)

/-- It is over an entry of the lower dentry of its parent, which is hashed as well. -/
theorem HashedAt.lower (hd : HashedAt k d e p) (h : MirrorInv super lroot A k) :
    ∃ ep q x, k.dentries e.parent = some ep ∧ ep.hashed = true ∧ ep.fsdata = some (some q) ∧
      LowerEntry k.low q.dentry e.name p.dentry ∧ (k.low.dentries p.dentry).inode = some x := by
  obtain ⟨p', ep, q, hp', hep, hephash, hq, hname, hparent, hlhash⟩ :=
    h.mirror d e hd.dentry hd.hashed hd.ne_zero
  rw [hd.path] at hp'
  cases hp'
  obtain ⟨x, hx⟩ := h.exists_inode hd.dentry hd.hashed hd.path
  exact ⟨ep, q, x, hep, hephash, hq, ⟨hlhash, hparent, hname⟩, hx⟩

/-- Its lower dentry is below the root of the mount. -/
theorem HashedAt.below_root (hd : HashedAt k d e p) (h : MirrorInv super lroot A k) :
    p.dentry ∉ A ∧ p.dentry ≠ lroot := by
  refine ⟨h.outside d e p hd.dentry hd.path, fun hroot => hd.ne_zero ?_⟩
  obtain ⟨er, m, her, herhash, -, hr⟩ := h.root
  exact h.inj d 0 e er p ⟨lroot, m⟩ hd.dentry her hd.hashed herhash hd.path hr hroot

/-- Other hashed dentries have other lower dentries. -/
theorem HashedAt.unseen (hd : HashedAt k d e p) (h : MirrorInv super lroot A k) {d' : ℕ}
    {e' : UpperDentry} {p' : LowerPath} (hd' : k.dentries d' = some e')
    (hhash' : e'.hashed = true) (hne : d' ≠ d) (hp' : e'.fsdata = some (some p')) :
    p'.dentry ≠ p.dentry :=
  fun heq => hne (h.inj d' d e' e p' p hd' hd.dentry hhash' hd.hashed hp' hd.path heq)

/-- The path `wrapfs_get_lower_path` returns for it. -/
theorem HashedAt.stored (hd : HashedAt k d e p) {path : LowerPath}
    (hpath : k.stored d = some path) : path = p := by
  obtain ⟨e', he', hpath⟩ := Core.stored_eq_some.mp hpath
  rw [hd.dentry] at he'
  cases he'
  rw [hd.path] at hpath
  cases hpath
  rfl

/-- A dentry that is unhashed, perhaps with another name. -/
theorem MirrorInv.unhash (h : MirrorInv super lroot A k) (hd : k.dentries d = some e)
    (hd0 : d ≠ 0) (hchild : NoChild k d) (name : String) (parent : ℕ) :
    MirrorInv super lroot A
      (k.setDentry d (some { e with name := name, parent := parent, hashed := false })) := by
  refine h.setUnhashed hd0 (h.lt hd) hchild fun e' he' => ?_
  cases he'
  exact ⟨rfl, ⟨nofun, (h.attached d e hd).2⟩, fun p' hp' => h.outside d e p' hd hp'⟩

/-- What is hashed after a dentry has been unhashed was so before. -/
theorem hashed_of_setDentry {o : UpperDentry} (ho : o.hashed = false) {d' : ℕ}
    {e' : UpperDentry} (hd' : (k.setDentry d (some o)).dentries d' = some e')
    (hhash : e'.hashed = true) : d' ≠ d ∧ k.dentries d' = some e' := by
  have hne : d' ≠ d := by
    rintro rfl
    rw [Core.setDentry_self] at hd'
    cases hd'
    rw [ho] at hhash
    cases hhash
  exact ⟨hne, by rwa [Core.setDentry_of_ne _ hne] at hd'⟩

/-- **A name is removed** above and below. -/
theorem MirrorInv.removal (h : MirrorInv super lroot A k) (hd : HashedAt k d e p)
    (hchild : NoChild k d) {t : LowerTree} (ht : k.low.Removal p.dentry t) :
    MirrorInv super lroot A ((k.setLow t).setDentry d (some { e with hashed := false })) := by
  obtain ⟨v, hinode, hparent, ht⟩ := ht
  obtain ⟨hA, hroot⟩ := hd.below_root h
  obtain ⟨ep, q, x, -, -, -, hl, hx⟩ := hd.lower h
  have hv : ∀ z, (k.low.dentries p.dentry).inode = some z → v.inode = some z :=
    fun z hz => hinode.trans hz
  refine MirrorInv.recount (k := (k.setLow (k.low.set p.dentry v)).setDentry d
    (some { e with hashed := false })) ?_ ht
  refine (h.unhash hd.dentry hd.ne_zero hchild e.name e.parent).setLow
    (h.tree.set hA hroot (h.tree.lt hl.1) hv fun z _ _ => ?_) (keepsInodes_set hv)
    fun d' e' p' hd' hhash' _ hp' => ?_
  · rw [hparent]
    exact h.tree.dir p.dentry x hl.1 hx
  · obtain ⟨hne, hd'⟩ := hashed_of_setDentry rfl hd' hhash'
    exact sameEntry_set_of_ne k.low (hd.unseen h hd' hhash' hne hp') v

/-! ## A file gets another name -/

/-- What the target of a rename is, as far as the rename is concerned. -/
structure Target (A : Set ℕ) (lroot : ℕ) (k : TreeCore) (q : LowerPath) (d : ℕ)
    (e : UpperDentry) (p : LowerPath) : Prop where
  dentry : k.dentries d = some e
  ne_zero : d ≠ 0
  path : e.fsdata = some (some p)
  entry : LowerEntry k.low q.dentry e.name p.dentry
  parent : ∃ ep, k.dentries e.parent = some ep ∧ ep.hashed = true ∧ ep.fsdata = some (some q)
  isDir : k.low.IsDir q.dentry
  outside : p.dentry ∉ A ∧ p.dentry ≠ lroot
  unseen : ∀ d' e' p', k.dentries d' = some e' → e'.hashed = true → d' ≠ d →
    e'.fsdata = some (some p') → p'.dentry ≠ p.dentry

/-- A name that is free. -/
theorem MirrorInv.target_of_pending (h : MirrorInv super lroot A k)
    (hpend : PendingAt k q d e p) : Target A lroot k q d e p :=
  ⟨hpend.dentry, h.ne_zero hpend.dentry hpend.unhashed, hpend.path, hpend.entry, hpend.parent,
    hpend.isDir, hpend.entry_outside h hpend.entry.1 hpend.entry.2.1,
    fun _ _ _ hd' hhash' _ hp' => hpend.entry_new h hpend.entry hd' hhash' hp'⟩

/-- A name that is taken, by a file the rename will replace. -/
theorem MirrorInv.target_of_hashed (h : MirrorInv super lroot A k) (hd : HashedAt k d e p) :
    ∃ q, Target A lroot k q d e p := by
  obtain ⟨ep, q, x, hep, hephash, hq, hl, hx⟩ := hd.lower h
  refine ⟨q, hd.dentry, hd.ne_zero, hd.path, hl, ⟨ep, hep, hephash, hq⟩, ?_, hd.below_root h,
    fun _ _ _ hd' hhash' hne hp' => hd.unseen h hd' hhash' hne hp'⟩
  rw [← hl.2.1]
  exact h.tree.dir p.dentry x hl.1 hx

/-- **A file gets another name** above and below. -/
theorem MirrorInv.rename (h : MirrorInv super lroot A k) {old : ℕ} {eo : UpperDentry}
    {po : LowerPath} (ho : HashedAt k old eo po) (hnew : Target A lroot k q d e p)
    (hne : old ≠ d) (hchild : NoChild k d) (hself : e.parent ≠ d) {t : LowerTree}
    (ht : (k.low.dMove po.dentry p.dentry).Recount t) :
    MirrorInv super lroot A
      (((k.setLow t).setDentry d
        (some { e with name := eo.name, parent := eo.parent, hashed := false })).setDentry old
        (some { eo with name := e.name, parent := e.parent, hashed := true })) := by
  obtain ⟨hA, hroot⟩ := ho.below_root h
  obtain ⟨_, _, _, -, -, -, hlo, -⟩ := ho.lower h
  have hlne : po.dentry ≠ p.dentry := hnew.unseen old eo po ho.dentry ho.hashed hne ho.path
  obtain ⟨htree, hkeep⟩ := h.tree.dMove hA hroot (h.tree.lt hlo.1)
    hnew.outside.1 hnew.outside.2 (h.tree.lt hnew.entry.1) hlne (by
      rw [hnew.entry.2.1]
      exact hnew.isDir)
  -- first the target is unhashed
  set k₁ := k.setDentry d
    (some { e with name := eo.name, parent := eo.parent, hashed := false }) with hk₁
  have h₁ : MirrorInv super lroot A k₁ := h.unhash hnew.dentry hnew.ne_zero hchild _ _
  have ho₁ : k₁.dentries old = some eo := by
    rw [hk₁, Core.setDentry_of_ne _ hne]
    exact ho.dentry
  -- then the source moves, together with its lower dentry
  refine MirrorInv.recount (k := (k₁.setLow (k.low.dMove po.dentry p.dentry)).setDentry old
    (some { eo with name := e.name, parent := e.parent, hashed := true })) ?_ ht
  refine h₁.setHashed (t := k.low.dMove po.dentry p.dentry) ho.ne_zero (h₁.lt ho₁) htree hkeep
    (fun d' e' p' hd' hhash' _ hd'o hp' => ?_) rfl ho.path hA
    ⟨fun _ => (h.attached old eo ho.dentry).1 ho.hashed, fun u hu => ?_⟩ ?_
    (fun e' he' _ => ?_) fun d' e' p' hd' hhash' hd'o hp' => ?_
  · obtain ⟨hd'd, hd'⟩ := hashed_of_setDentry rfl hd' hhash'
    exact (sameEntry_set_of_ne k.low (hnew.unseen d' e' p' hd' hhash' hd'd hp') _).trans
      (sameEntry_set_of_ne _ (ho.unseen h hd' hhash' hd'o hp') _)
  · obtain ⟨p', x, hp', hlower, hx, hsb⟩ := (h.attached old eo ho.dentry).2 u hu
    exact ⟨p', x, hp', hlower, hkeep _ x hx, hsb⟩
  · obtain ⟨ep, hep, hephash, hq⟩ := hnew.parent
    have hmoved : ((k.low.dMove po.dentry p.dentry).dentries po.dentry).name = e.name ∧
        ((k.low.dMove po.dentry p.dentry).dentries po.dentry).parent = q.dentry ∧
        ((k.low.dMove po.dentry p.dentry).dentries po.dentry).hashed = true := by
      rw [LowerTree.dMove, LowerTree.set_self]
      exact ⟨hnew.entry.2.2, hnew.entry.2.1, rfl⟩
    -- a directory moved into itself would be its own parent
    by_cases heo : e.parent = old
    · refine ⟨po, { eo with name := e.name, parent := e.parent, hashed := true }, q, ho.path, ?_,
        rfl, ?_, hmoved⟩
      · rw [heo]
        exact Core.setDentry_self _ _ _
      · rw [heo, ho.dentry] at hep
        cases hep
        exact hq
    · refine ⟨po, ep, q, ho.path, ?_, hephash, hq, hmoved⟩
      rw [Core.setDentry_of_ne _ heo, Core.setLow_dentries, hk₁, Core.setDentry_of_ne _ hself]
      exact hep
  · rw [ho₁] at he'
    cases he'
    rfl
  · obtain ⟨-, hd'⟩ := hashed_of_setDentry rfl hd' hhash'
    exact ho.unseen h hd' hhash' hd'o hp'

/-! ## The code -/

/-- From `s` the code ends, if it does, with the mirror kept. -/
def MirrorAfter (super lroot : ℕ) (A : Set ℕ) {α : Type} (m : TreeOp α)
    (s : Ns LowerTree LowerInode) : Prop :=
  Yields m s fun _ s' => MirrorInv super lroot A s'.toCore

section Code

variable {s : Ns LowerTree LowerInode}

/-- Returning changes nothing. -/
theorem MirrorAfter.pure {α : Type} (h : MirrorInv super lroot A s.toCore) (a : α) :
    MirrorAfter super lroot A (pure a) s := by
  rw [MirrorAfter, yields_pure]
  exact h

/-- Neither does copying attributes. -/
theorem MirrorAfter.of_quiet {α : Type} {m : TreeOp α} (hm : Quiet m)
    (h : MirrorInv super lroot A s.toCore) : MirrorAfter super lroot A m s :=
  (Balanced.yields hm s).mono fun _ _ hcore => hcore ▸ h

/-- Without write access to the lower mount the body is not run. -/
theorem MirrorAfter.withWrite {body : TreeOp (Option Errno)} (mnt : ℕ)
    (wantWrite : Option Errno) (h : MirrorInv super lroot A s.toCore)
    (hbody : MirrorAfter super lroot A body s) :
    MirrorAfter super lroot A (withWrite mnt wantWrite body) s := by
  rw [MirrorAfter, yields_withWrite]
  exact ⟨fun _ _ => h, fun _ => hbody⟩

/-- Quiet code first. -/
theorem MirrorAfter.quiet_bind {α β : Type} {m : TreeOp α} {f : α → TreeOp β} (hm : Quiet m)
    (hf : ∀ a s', s'.toCore = s.toCore → MirrorAfter super lroot A (f a) s') :
    MirrorAfter super lroot A (m >>= f) s := by
  rw [MirrorAfter, yields_bind]
  exact (Balanced.yields hm s).mono hf

/-- Quiet code last. -/
theorem MirrorAfter.bind_quiet {α β : Type} {m : TreeOp α} {f : α → TreeOp β}
    (hm : MirrorAfter super lroot A m s) (hf : ∀ a, Quiet (f a)) :
    MirrorAfter super lroot A (m >>= f) s := by
  rw [MirrorAfter, yields_bind]
  exact hm.mono fun a _ hs' => MirrorAfter.of_quiet (hf a) hs'

/-! ### Making a file -/

/-- `wrapfs_interpose` on a pending dentry. -/
theorem mirror_wrapfsInterpose (h : MirrorInv super lroot A s.toCore)
    (hpend : PendingAt s.toCore q d e p) (c : IgetCalls) :
    MirrorAfter super lroot A (wrapfsInterpose (treeVfs super) d p c) s := by
  refine yields_wrapfsInterpose (treeVfs super) hpend.dentry p c ?_ ?_
  · intro lower err s' _ hs'
    rcases hs' with hs' | hs'
    · rw [hs']
      exact h
    · rw [hs']
      exact h.setHash (wf_wrapfsIget h.hash) fun _ _ _ _ _ _ hu => lowerOf_wrapfsIget h.hash hu
  · intro lower u s' hlower hsb hu hs'
    rw [hs']
    exact h.interpose hpend.toPending (wf_wrapfsIget h.hash)
      (fun _ _ hu => lowerOf_wrapfsIget h.hash hu) hpend.entry hlower hsb
      (lowerOf_of_wrapfsIget_ok hu) rfl rfl rfl rfl hpend.path

/-- The path `wrapfs_get_lower_path` returns for a pending dentry. -/
theorem PendingAt.stored (hpend : PendingAt s.toCore q d e p) {path : LowerPath}
    (hpath : s.stored d = some path) : path = p := by
  obtain ⟨e', he', hpath⟩ := Core.stored_eq_some.mp hpath
  rw [hpend.dentry] at he'
  cases he'
  rw [hpend.path] at hpath
  cases hpath
  rfl

/-- The end of the operations that make a file: `wrapfs_interpose`, and then
attributes. -/
theorem mirror_interposeThen (h : MirrorInv super lroot A s.toCore)
    (hpend : PendingAt s.toCore q d e p) (c : IgetCalls) {rest : TreeOp (Option Errno)}
    (hrest : Quiet rest) :
    MirrorAfter super lroot A (do
      let err ← wrapfsInterpose (treeVfs super) d p c
      match err with
      | some err => pure (some err)
      | none => rest) s := by
  refine .bind_quiet (mirror_wrapfsInterpose h hpend c) fun err => ?_
  cases err with
  | some err => exact .pure _
  | none => exact hrest

/-- The lower call and what follows it, for `symlink`, `mkdir` and `mknod`. -/
theorem mirror_newUnderWrite (h : MirrorInv super lroot A s.toCore)
    (hpend : PendingAt s.toCore q d e p) (kind : NewKind) {finish : TreeOp Unit}
    (hfinish : Quiet finish) (dir parent : ℕ) (c : NewCalls) :
    MirrorAfter super lroot A (newUnderWrite (treeVfs super) kind finish dir d p parent c) s := by
  simp only [MirrorAfter, newUnderWrite, yields_bind, yields_look, yields_changeCore]
  rcases vfsNew_cases kind s.low ((treeVfs super).dInode s.low parent) p.dentry c.vfs with
    ⟨err, hcall⟩ | ⟨_, t, -, -, ht, hcall⟩
  · rw [show (treeVfs super).vfsNew kind s.low _ p.dentry c.vfs = (some err, s.low) from hcall]
    exact MirrorAfter.pure (s := s) h _
  · rw [show (treeVfs super).vfsNew kind s.low _ p.dentry c.vfs = (none, t) from hcall]
    obtain ⟨h₁, hpend₁⟩ := h.creation hpend ht
    refine mirror_interposeThen (s := s.withCore (s.setLow t)) h₁ hpend₁ c.iget ?_
    exact .bind (quiet_copyFromOwn _ _ _) fun _ => .bind .look fun _ =>
      .bind (quiet_copyFrom _ _ _ _) fun _ => .bind hfinish fun _ => .pure _

/-- What is around the lower call keeps the mirror if what is under it does. -/
theorem mirror_underLockedParent (h : MirrorInv super lroot A s.toCore)
    (hpend : PendingAt s.toCore q d e p) (wantWrite : Option Errno)
    {body : LowerPath → ℕ → TreeOp (Option Errno)}
    (hbody : ∀ parent, MirrorAfter super lroot A (body p parent) s) :
    MirrorAfter super lroot A (underLockedParent (treeVfs super) d wantWrite body) s := by
  simp only [MirrorAfter, underLockedParent, yields_bind, yields_wrapfsGetLowerPath,
    yields_lockParent, yields_unlockDir, yields_wrapfsPutLowerPath, yields_pure]
  intro path hpath
  obtain rfl := hpend.stored hpath
  exact MirrorAfter.withWrite _ _ h (hbody _)

/-- **`wrapfs_symlink`, `wrapfs_mkdir` and `wrapfs_mknod`.** -/
theorem mirror_wrapfsNew (h : MirrorInv super lroot A s.toCore)
    (hpend : PendingAt s.toCore q d e p) (kind : NewKind) {finish : TreeOp Unit}
    (hfinish : Quiet finish) (dir : ℕ) (c : NewCalls) :
    MirrorAfter super lroot A (wrapfsNew (treeVfs super) kind finish dir d c) s :=
  mirror_underLockedParent h hpend c.wantWrite fun parent =>
    mirror_newUnderWrite h hpend kind hfinish dir parent c

/-- **`wrapfs_create`.**  A missing `nd` stops it before the lower call. -/
theorem mirror_wrapfsCreate (h : MirrorInv super lroot A s.toCore)
    (hpend : PendingAt s.toCore q d e p) (dir : ℕ) (nd : Option LookupFlags) (c : NewCalls) :
    MirrorAfter super lroot A (wrapfsCreate (treeVfs super) dir d nd c) s := by
  refine mirror_underLockedParent h hpend c.wantWrite fun parent => ?_
  rw [MirrorAfter, yields_bind, yields_deref]
  exact fun _ _ => mirror_newUnderWrite h hpend .create (.pure _) dir parent c

/-- The four of them as the VFS calls them. -/
theorem mirror_wrapfsMake (h : MirrorInv super lroot A s.toCore)
    (hpend : PendingAt s.toCore q d e p) (kind : NewKind) (nd : Option LookupFlags) (dir : ℕ)
    (c : NewCalls) :
    MirrorAfter super lroot A (wrapfsMake super kind nd dir d c) s := by
  cases kind with
  | create => exact mirror_wrapfsCreate h hpend dir nd c
  | symlink => exact mirror_wrapfsNew h hpend _ (.pure _) dir c
  | mkdir => exact mirror_wrapfsNew h hpend _ (quiet_copyFromOwn _ _ _) dir c
  | mknod => exact mirror_wrapfsNew h hpend _ (.pure _) dir c

/-- A hard link is one more name of a lower inode, so the new upper dentry gets the inode
`wrapfs_iget` already has for it. -/
theorem mirror_linkUnderWrite (h : MirrorInv super lroot A s.toCore)
    (hpend : PendingAt s.toCore q d e p) (uOld dir : ℕ) (oldPath : LowerPath)
    (parent fileSizeSave : ℕ) (c : NewCalls) :
    MirrorAfter super lroot A
      (linkUnderWrite (treeVfs super) uOld dir d oldPath p parent fileSizeSave c) s := by
  simp only [MirrorAfter, linkUnderWrite, yields_bind, yields_look, yields_changeCore]
  rcases vfsLink_cases s.low oldPath.dentry ((treeVfs super).dInode s.low parent) p.dentry c.vfs
    with ⟨err, hcall⟩ | ⟨_, t, -, -, ht, hcall⟩
  · rw [show (treeVfs super).vfsLink s.low oldPath.dentry _ p.dentry c.vfs = (some err, s.low)
      from hcall]
    exact MirrorAfter.pure (s := s) h _
  · rw [show (treeVfs super).vfsLink s.low oldPath.dentry _ p.dentry c.vfs = (none, t) from hcall]
    obtain ⟨h₁, hpend₁⟩ := h.creation hpend ht
    simp only [yields_ite]
    split
    · exact MirrorAfter.pure (s := s.withCore (s.setLow t)) h₁ _
    · refine mirror_interposeThen (s := s.withCore (s.setLow t)) h₁ hpend₁ c.iget ?_
      exact .bind (quiet_copyFrom _ _ _ _) fun _ => .bind (quiet_copyFrom _ _ _ _) fun _ =>
        .bind (quiet_copyFromOwn _ _ _) fun _ => .bind (quiet_dentryAt _) fun _ =>
          .bind (quiet_deref _) fun _ => .bind (quiet_touchInode _ _) fun _ => .pure _

/-- **`wrapfs_link`.** -/
theorem mirror_wrapfsLink (h : MirrorInv super lroot A s.toCore)
    (hpend : PendingAt s.toCore q d e p) (old dir : ℕ) (c : NewCalls) :
    MirrorAfter super lroot A (wrapfsLink (treeVfs super) old dir d c) s := by
  simp only [MirrorAfter, wrapfsLink, yields_bind, yields_dentryAt, yields_deref, yields_look,
    yields_wrapfsGetLowerPath, yields_lockParent, yields_unlockDir, yields_wrapfsPutLowerPath,
    yields_pure]
  intro eOld _ uOld _ oldPath _ path hpath
  obtain rfl := hpend.stored hpath
  exact MirrorAfter.withWrite _ _ h (mirror_linkUnderWrite h hpend uOld dir oldPath _ _ c)

/-! ### Removing a name -/

/-- `d_drop` is the upper half of a removal. -/
theorem mirror_dDrop (hd : s.dentries d = some e)
    (h : MirrorInv super lroot A (s.setDentry d (some { e with hashed := false }))) :
    MirrorAfter super lroot A (dDrop d) s := by
  simp only [MirrorAfter, dDrop, yields_bind, yields_dentryAt, yields_changeCore]
  intro e' he'
  obtain rfl : e = e' := Option.some.inj (hd.symm.trans he')
  exact h

/-- What `wrapfs_unlink` does once the lower name is gone. -/
theorem mirror_unlinkDeleted (hd : s.dentries d = some e)
    (h : MirrorInv super lroot A (s.setDentry d (some { e with hashed := false })))
    (dir : ℕ) (lowerDir : Option LowerInode) :
    MirrorAfter super lroot A (unlinkDeleted (treeVfs super) dir d lowerDir) s := by
  refine .quiet_bind (quiet_copyFrom _ _ _ _) fun _ s₁ h₁ => ?_
  refine .quiet_bind (quiet_copyFrom _ _ _ _) fun _ s₂ h₂ => ?_
  refine .quiet_bind (quiet_dentryAt _) fun _ s₃ h₃ => ?_
  refine .quiet_bind (quiet_deref _) fun _ s₄ h₄ => ?_
  refine .quiet_bind (quiet_copyFromOwn _ _ _) fun _ s₅ h₅ => ?_
  refine .quiet_bind .look fun _ s₆ h₆ => ?_
  refine .quiet_bind (quiet_touchInode _ _) fun _ s₇ h₇ => ?_
  have hcore : s₇.toCore = s.toCore := by rw [h₇, h₆, h₅, h₄, h₃, h₂, h₁]
  refine mirror_dDrop (e := e) ?_ ?_
  · rw [hcore]
    exact hd
  · rw [hcore]
    exact h

/-- The lower `vfs_unlink`, with both halves of the step. -/
theorem mirror_unlinkUnderWrite (h : MirrorInv super lroot A s.toCore)
    (hd : HashedAt s.toCore d e p) (hchild : NoChild s.toCore d) (dir : ℕ)
    (lowerDir : Option LowerInode) (c : RemoveCalls) :
    MirrorAfter super lroot A (unlinkUnderWrite (treeVfs super) dir d lowerDir p c) s := by
  simp only [MirrorAfter, unlinkUnderWrite, yields_bind, yields_look, yields_changeCore]
  have hdeleted : ∀ t, s.low.Removal p.dentry t → MirrorAfter super lroot A (do
      unlinkDeleted (treeVfs super) dir d lowerDir
      pure none : TreeOp (Option Errno)) (s.withCore (s.setLow t)) := by
    intro t ht
    exact .bind_quiet (mirror_unlinkDeleted (s := s.withCore (s.setLow t)) hd.dentry
      (h.removal hd hchild ht) dir lowerDir) fun _ => .pure _
  rcases vfsUnlink_cases s.low lowerDir p.dentry c.vfs c.silly with
    ⟨err, hcall⟩ | ⟨_, t, -, -, ht, hcall⟩
  · rw [show (treeVfs super).vfsUnlink s.low lowerDir p.dentry c.vfs c.silly = (some err, s.low)
      from hcall]
    -- a second silly rename fails, and the name is dropped all the same
    split
    · exact MirrorAfter.pure (s := s) h _
    · exact hdeleted s.low (removal_refl _ _)
  · rw [show (treeVfs super).vfsUnlink s.low lowerDir p.dentry c.vfs c.silly = (none, t)
      from hcall]
    exact hdeleted t ht

/-- **`wrapfs_unlink`.** -/
theorem mirror_wrapfsUnlink (h : MirrorInv super lroot A s.toCore)
    (hd : HashedAt s.toCore d e p) (hchild : NoChild s.toCore d) (dir : ℕ) (c : RemoveCalls) :
    MirrorAfter super lroot A (wrapfsUnlink (treeVfs super) dir d c) s := by
  simp only [MirrorAfter, wrapfsUnlink, yields_bind, yields_wrapfsLowerInode,
    yields_wrapfsGetLowerPath, yields_acquire, yields_lockParent, yields_unlockDir,
    yields_release, yields_wrapfsPutLowerPath, yields_pure]
  intro inode _ path hpath
  obtain rfl := hd.stored hpath
  exact MirrorAfter.withWrite _ _ h (mirror_unlinkUnderWrite h hd hchild dir inode.lower c)

/-- The lower `vfs_rmdir`, which succeeds on an empty directory only. -/
theorem mirror_rmdirUnderWrite (h : MirrorInv super lroot A s.toCore)
    (hd : HashedAt s.toCore d e p) (dir parent : ℕ) (c : RemoveCalls) :
    MirrorAfter super lroot A (rmdirUnderWrite (treeVfs super) dir d p parent c) s := by
  simp only [MirrorAfter, rmdirUnderWrite, yields_bind, yields_look, yields_changeCore]
  rcases vfsRmdir_cases s.low ((treeVfs super).dInode s.low parent) p.dentry c.vfs with
    ⟨err, hcall⟩ | ⟨_, t, -, -, ht, hempty, hcall⟩
  · rw [show (treeVfs super).vfsRmdir s.low _ p.dentry c.vfs = (some err, s.low) from hcall]
    exact MirrorAfter.pure (s := s) h _
  · rw [show (treeVfs super).vfsRmdir s.low _ p.dentry c.vfs = (none, t) from hcall]
    have hchild : NoChild s.toCore d :=
      h.noChild hd.dentry hd.path fun _ => hempty
    have hdrop : MirrorAfter super lroot A (dDrop d) (s.withCore (s.setLow t)) :=
      mirror_dDrop hd.dentry (h.removal hd hchild ht)
    refine MirrorAfter.bind_quiet hdrop fun _ => ?_
    refine .bind (quiet_dentryAt _) fun e => .bind ?_ fun _ =>
      .bind (quiet_copyFrom _ _ _ _) fun _ => .bind (quiet_copyFrom _ _ _ _) fun _ =>
        .bind (quiet_copyFrom _ _ _ _) fun _ => .pure _
    cases e.inode with
    | none => exact .pure _
    | some u => exact quiet_touchInode _ _

/-- **`wrapfs_rmdir`.** -/
theorem mirror_wrapfsRmdir (h : MirrorInv super lroot A s.toCore)
    (hd : HashedAt s.toCore d e p) (dir : ℕ) (c : RemoveCalls) :
    MirrorAfter super lroot A (wrapfsRmdir (treeVfs super) dir d c) s := by
  simp only [MirrorAfter, wrapfsRmdir, yields_bind, yields_wrapfsGetLowerPath, yields_lockParent,
    yields_unlockDir, yields_wrapfsPutLowerPath, yields_pure]
  intro path hpath
  obtain rfl := hd.stored hpath
  exact MirrorAfter.withWrite _ _ h (mirror_rmdirUnderWrite h hd dir _ c)

/-! ### Renaming -/

/-- A rename fails and changes nothing, finds two names of one file and changes nothing,
or moves the lower dentry. -/
def Renamed (k : TreeCore) (po pn : LowerPath) (err : Option Errno) (k' : TreeCore) : Prop :=
  (∃ e, err = some e ∧ k' = k) ∨
    (k.low.dentries po.dentry).inode = (k.low.dentries pn.dentry).inode ∧ k' = k ∨
    ∃ x t, err = none ∧ (k.low.dentries po.dentry).inode = some x ∧
      k.low.replaceable x pn.dentry = none ∧ (k.low.dMove po.dentry pn.dentry).Recount t ∧
      k' = k.setLow t

/-- The lower `vfs_rename` and the attributes copied after it. -/
theorem renamed_renameUnderWrite (oldDir newDir : ℕ) (po pn : LowerPath)
    (lowerOldDir lowerNewDir : ℕ) (c : RenameCalls) :
    Yields (renameUnderWrite (treeVfs super) oldDir newDir po pn lowerOldDir lowerNewDir c) s
      fun err s' => Renamed s.toCore po pn err s'.toCore := by
  simp only [renameUnderWrite, yields_bind, yields_look, yields_changeCore]
  -- the attributes copied at the end do not matter
  have hdone : ∀ t, Renamed s.toCore po pn none (s.setLow t) →
      Yields (do
        copyRenameAttrs (treeVfs super) oldDir newDir ((treeVfs super).dInode t lowerOldDir)
          ((treeVfs super).dInode t lowerNewDir)
        pure none : TreeOp (Option Errno)) (s.withCore (s.setLow t))
        fun err s' => Renamed s.toCore po pn err s'.toCore := by
    intro t ht
    rw [yields_bind]
    refine (Balanced.yields (quiet_copyRenameAttrs (treeVfs super) _ _ _ _) _).mono ?_
    intro _ s' hcore
    rw [yields_pure, hcore]
    exact ht
  rcases vfsRename_cases s.low ((treeVfs super).dInode s.low lowerOldDir) po.dentry
      ((treeVfs super).dInode s.low lowerNewDir) pn.dentry c.vfs with
    ⟨err, hcall⟩ | ⟨hsame, hcall⟩ | ⟨x, t, hx, -, hrep, ht, hcall⟩
  · rw [show (treeVfs super).vfsRename s.low _ po.dentry _ pn.dentry c.vfs = (some err, s.low)
      from hcall, yields_pure]
    exact Or.inl ⟨err, rfl, rfl⟩
  · rw [show (treeVfs super).vfsRename s.low _ po.dentry _ pn.dentry c.vfs = (none, s.low)
      from hcall]
    exact hdone s.low (Or.inr (Or.inl ⟨hsame, rfl⟩))
  · rw [show (treeVfs super).vfsRename s.low _ po.dentry _ pn.dentry c.vfs = (none, t)
      from hcall]
    refine hdone t (Or.inr (Or.inr ⟨x, t, rfl, hx, hrep, ?_, rfl⟩))
    rw [ht]
    exact recount_countRename _ _ _ _ _

/-- With the checks against the trapped ancestor, which only fail. -/
theorem renamed_renameLocked (oldDir newDir : ℕ) (po pn : LowerPath)
    (lowerOldDir lowerNewDir : ℕ) (trap : Option ℕ) (c : RenameCalls) :
    Yields (renameLocked (treeVfs super) oldDir newDir po pn lowerOldDir lowerNewDir trap c) s
      fun err s' => Renamed s.toCore po pn err s'.toCore := by
  have hfail : ∀ err, Renamed s.toCore po pn (some err) s.toCore :=
    fun err => Or.inl ⟨err, rfl, rfl⟩
  simp only [renameLocked, yields_ite, yields_pure, yields_withWrite]
  split
  · exact hfail _
  · split
    · exact hfail _
    · exact ⟨fun err _ => hfail err, fun _ => ⟨fun err _ => hfail err, fun _ =>
        renamed_renameUnderWrite _ _ _ _ _ _ c⟩⟩

/-- **`wrapfs_rename`**: the lower half of a rename. -/
theorem renamed_wrapfsRename {old new : ℕ} {po pn : LowerPath}
    (ho : s.stored old = some po) (hn : s.stored new = some pn) (oldDir newDir : ℕ)
    (c : RenameCalls) :
    Yields (wrapfsRename (treeVfs super) oldDir old newDir new c) s
      fun err s' => Renamed s.toCore po pn err s'.toCore := by
  simp only [wrapfsRename, yields_bind, yields_wrapfsGetLowerPath, yields_look, yields_acquire,
    yields_lockRename, yields_unlockRename, yields_release, yields_wrapfsPutLowerPath,
    yields_pure]
  intro po' ho' pn' hn'
  obtain rfl : po = po' := Option.some.inj (ho.symm.trans ho')
  obtain rfl : pn = pn' := Option.some.inj (hn.symm.trans hn')
  exact renamed_renameLocked oldDir newDir po pn _ _ _ c

end Code

end Wrapfs.Namespace
