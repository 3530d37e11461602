import Mathlib
import Wrapfs.Namespace.Operations

/-!
# Rules for the directory operations

The directory operations are long bodies made of a dozen small pieces: follow a pointer, get and
put a lower path, lock a lower parent, take write access to the mount, copy attributes.  This
module has one rule for each piece and each judgement of `Wrapfs.Foundations.LedgerOp`, so that a
proof about an operation never looks inside a piece.

* `Ensures` for the results about references and locks (`Wrapfs.Namespace.Balance`): the rule of
  `wrapfs_get_lower_path` puts the two references of the path on the ledger, the rule of
  `unlock_dir` takes the lock and the reference of the parent off it.
* `Yields` for the results about the two trees (`Wrapfs.Namespace.MirrorLookup`,
  `Wrapfs.Namespace.MirrorChange`, `Wrapfs.Namespace.LinkCounts`), where the ledger only stands in
  the way.
* `Returns` for the results that say when an operation comes back at all
  (`Wrapfs.Namespace.FailedMake`, `Wrapfs.Namespace.ParentAttrs`).

The rules are equivalences and carry `simp`.  A piece that can meet a bad pointer has a rule with
a guard, universal in the first two judgements (nothing is said of a call that does not return)
and existential in the third.

## Quiet code

*Quiet* code looks at things and copies attributes: it takes nothing and changes nothing of the
core of the state, which is the lower file system, the dentries and the inode hash.  All the
attribute copying at the end of an operation is quiet, and is skipped by `quiet_copyDirAttrs` and
its like in every proof that is not about attributes.

## `wrapfs_interpose`

It is the one piece with outcomes of its own.  `yields_wrapfsInterpose_iff` says all of them as an
equivalence; `yields_wrapfsInterpose` is the weaker form for invariants, which only need that a
failure at most leaves a new inode behind.
-/

namespace Wrapfs.Namespace

open Ledger

variable {σ ι : Type} {s : Ns σ ι} {held : Multiset Res}

/-- Following a pointer: code after it may assume that it is not `NULL`. -/
@[simp] theorem ensures_deref {α : Type} (p : Option α)
    {Q : α → Ns σ ι → Multiset Res → Prop} :
    Ensures (deref p : NsOp σ ι α) s held Q ↔ ∀ a, p = some a → Q a s held := by
  cases p with
  | none =>
      refine iff_of_true (ensures_fault _) fun a ha => ?_
      cases ha
  | some a =>
      show Ensures (pure a) s held Q ↔ _
      rw [ensures_pure]
      refine ⟨fun h b hb => ?_, fun h => h a rfl⟩
      cases hb
      exact h

/-- A store to the dentries, the inodes or the lower file system. -/
@[simp] theorem ensures_changeCore (f : Core σ ι → Core σ ι)
    {Q : Unit → Ns σ ι → Multiset Res → Prop} :
    Ensures (changeCore f) s held Q ↔ Q () (s.withCore (f s.toCore)) held :=
  ensures_change _

/-- A store to the attributes of one upper inode. -/
@[simp] theorem ensures_touchInode (u : ℕ) (f : Attr → Attr)
    {Q : Unit → Ns σ ι → Multiset Res → Prop} :
    Ensures (touchInode u f) s held Q ↔ Q () (s.touch u f) held :=
  ensures_change _

/-- Following a `struct dentry *`. -/
@[simp] theorem ensures_dentryAt (d : ℕ) {Q : UpperDentry → Ns σ ι → Multiset Res → Prop} :
    Ensures (dentryAt d) s held Q ↔ ∀ e, s.dentries d = some e → Q e s held := by
  simp [dentryAt]

/-- `wrapfs_lower_inode`, which may be `NULL` in an inode just allocated. -/
@[simp] theorem ensures_wrapfsLowerInode (u : ℕ)
    {Q : Option ι → Ns σ ι → Multiset Res → Prop} :
    Ensures (wrapfsLowerInode u) s held Q ↔
      ∀ inode, s.hash.inodes u = some inode → Q inode.lower s held := by
  simp [wrapfsLowerInode]

/-- `wrapfs_get_lower_path` takes both references of the stored path. -/
@[simp] theorem ensures_wrapfsGetLowerPath (d : ℕ)
    {Q : LowerPath → Ns σ ι → Multiset Res → Prop} :
    Ensures (wrapfsGetLowerPath d) s held Q ↔
      ∀ path, s.stored d = some path →
        Q path s (.dentry path.dentry ::ₘ .mnt path.mnt ::ₘ held) := by
  simp [wrapfsGetLowerPath, pathGet]

variable (V : LowerVfs σ ι)

/-- `lock_parent` holds the parent of a lower dentry and locks it. -/
@[simp] theorem ensures_lockParent (lower : ℕ) {Q : ℕ → Ns σ ι → Multiset Res → Prop} :
    Ensures (lockParent V lower) s held Q ↔
      Q (V.dParent s.low lower) s
        (.iMutex (V.dParent s.low lower) ::ₘ .dentry (V.dParent s.low lower) ::ₘ held) := by
  simp [lockParent]

/-- `unlock_dir` is the inverse of `lock_parent`. -/
@[simp] theorem ensures_unlockDir (dir : ℕ) {Q : Unit → Ns σ ι → Multiset Res → Prop} :
    Ensures (unlockDir dir) s (.iMutex dir ::ₘ .dentry dir ::ₘ held) Q ↔ Q () s held := by
  simp [unlockDir]

/-- A copy of attributes follows the lower inode, and takes nothing. -/
@[simp] theorem ensures_copyFrom (copy : Attr → Attr → Attr) (u : ℕ) (src : Option ι)
    {Q : Unit → Ns σ ι → Multiset Res → Prop} :
    Ensures (copyFrom V copy u src) s held Q ↔
      ∀ x, src = some x → Q () (s.touch u fun a => copy a (V.iAttr s.low x)) held := by
  simp [copyFrom]

/-- Code under `mnt_want_write` runs with write access held, or not at all. -/
@[simp] theorem ensures_withWrite (mnt : ℕ) (wantWrite : Option Errno)
    (body : NsOp σ ι (Option Errno)) {Q : Option Errno → Ns σ ι → Multiset Res → Prop} :
    Ensures (withWrite mnt wantWrite body) s held Q ↔
      (∀ err, wantWrite = some err → Q (some err) s held) ∧
        (wantWrite = none → Ensures body s (.mntWrite mnt ::ₘ held) fun err s' held' =>
          Ensures (release (.mntWrite mnt) : NsOp σ ι Unit) s' held' fun _ s'' held'' =>
            Q err s'' held'') := by
  cases wantWrite with
  | none => simp [withWrite]
  | some err => simp [withWrite]

/-! ## The same without the ledger -/

section Yields

/-- Following a pointer. -/
@[simp] theorem yields_deref {α : Type} (p : Option α) {P : α → Ns σ ι → Prop} :
    Yields (deref p : NsOp σ ι α) s P ↔ ∀ a, p = some a → P a s := by
  cases p with
  | none =>
      refine iff_of_true (yields_fault _) fun a ha => ?_
      cases ha
  | some a =>
      show Yields (pure a) s P ↔ _
      rw [yields_pure]
      refine ⟨fun h b hb => ?_, fun h => h a rfl⟩
      cases hb
      exact h

/-- A store to the core. -/
@[simp] theorem yields_changeCore (f : Core σ ι → Core σ ι) {P : Unit → Ns σ ι → Prop} :
    Yields (changeCore f) s P ↔ P () (s.withCore (f s.toCore)) :=
  yields_change _

/-- A store to attributes. -/
@[simp] theorem yields_touchInode (u : ℕ) (f : Attr → Attr) {P : Unit → Ns σ ι → Prop} :
    Yields (touchInode u f) s P ↔ P () (s.touch u f) :=
  yields_change _

/-- Following a `struct dentry *`. -/
@[simp] theorem yields_dentryAt (d : ℕ) {P : UpperDentry → Ns σ ι → Prop} :
    Yields (dentryAt d) s P ↔ ∀ e, s.dentries d = some e → P e s := by
  simp [dentryAt]

/-- `wrapfs_lower_inode` changes nothing. -/
@[simp] theorem yields_wrapfsLowerInode (u : ℕ) {P : Option ι → Ns σ ι → Prop} :
    Yields (wrapfsLowerInode u) s P ↔
      ∀ inode, s.hash.inodes u = some inode → P inode.lower s := by
  simp [wrapfsLowerInode]

/-- `path_put` changes the ledger only. -/
@[simp] theorem yields_pathPut (path : LowerPath) {P : Unit → Ns σ ι → Prop} :
    Yields (pathPut path) s P ↔ P () s := by
  simp [pathPut]

/-- `wrapfs_get_lower_path` returns the path that is stored. -/
@[simp] theorem yields_wrapfsGetLowerPath (d : ℕ) {P : LowerPath → Ns σ ι → Prop} :
    Yields (wrapfsGetLowerPath d) s P ↔ ∀ path, s.stored d = some path → P path s := by
  simp [wrapfsGetLowerPath, pathGet]

/-- `wrapfs_set_lower_path` on a dentry with private data. -/
theorem yields_wrapfsSetLowerPath {d : ℕ} {e : UpperDentry} {fs : Option LowerPath}
    (hd : s.dentries d = some e) (hfs : e.fsdata = some fs) (path : LowerPath)
    {P : Unit → Ns σ ι → Prop} :
    Yields (wrapfsSetLowerPath d path) s P ↔
      P () (s.withCore (s.setDentry d (some { e with fsdata := some (some path) }))) := by
  simp [wrapfsSetLowerPath, hd, hfs]

/-- `wrapfs_put_reset_lower_path` on a dentry with private data empties it. -/
theorem yields_wrapfsPutResetLowerPath {d : ℕ} {e : UpperDentry} {fs : Option LowerPath}
    (hd : s.dentries d = some e) (hfs : e.fsdata = some fs) {P : Unit → Ns σ ι → Prop} :
    Yields (wrapfsPutResetLowerPath d) s P ↔
      P () (s.withCore (s.setDentry d (some { e with fsdata := some none }))) := by
  cases fs with
  | none => simp [wrapfsPutResetLowerPath, hd, hfs]
  | some path => simp [wrapfsPutResetLowerPath, hd, hfs]

/-- `wrapfs_put_lower_path` changes the ledger only. -/
@[simp] theorem yields_wrapfsPutLowerPath (path : LowerPath) {P : Unit → Ns σ ι → Prop} :
    Yields (wrapfsPutLowerPath path) s P ↔ P () s :=
  yields_pathPut path

/-- `lock_parent` returns the lower parent. -/
@[simp] theorem yields_lockParent (lower : ℕ) {P : ℕ → Ns σ ι → Prop} :
    Yields (lockParent V lower) s P ↔ P (V.dParent s.low lower) s := by
  simp [lockParent]

/-- `unlock_dir` changes the ledger only. -/
@[simp] theorem yields_unlockDir (dir : ℕ) {P : Unit → Ns σ ι → Prop} :
    Yields (unlockDir dir) s P ↔ P () s := by
  simp [unlockDir]

/-- A copy of attributes from a given lower inode. -/
@[simp] theorem yields_copyFrom (copy : Attr → Attr → Attr) (u : ℕ) (src : Option ι)
    {P : Unit → Ns σ ι → Prop} :
    Yields (copyFrom V copy u src) s P ↔
      ∀ x, src = some x → P () (s.touch u fun a => copy a (V.iAttr s.low x)) := by
  simp [copyFrom]

/-- A copy of attributes from the lower inode of the same upper inode. -/
@[simp] theorem yields_copyFromOwn (copy : Attr → Attr → Attr) (u : ℕ)
    {P : Unit → Ns σ ι → Prop} :
    Yields (copyFromOwn V copy u) s P ↔
      ∀ x, s.hash.lowerOf u = some x → P () (s.touch u fun a => copy a (V.iAttr s.low x)) := by
  simp only [copyFromOwn, yields_bind, yields_wrapfsLowerInode, yields_copyFrom,
    InodeHash.lowerOf, Option.bind_eq_some_iff]
  exact ⟨fun h x ⟨inode, hu, hx⟩ => h inode hu x hx, fun h inode hu x hx => h x ⟨inode, hu, hx⟩⟩

/-- Code under `mnt_want_write`: its error, or what the code yields. -/
@[simp] theorem yields_withWrite (mnt : ℕ) (wantWrite : Option Errno)
    (body : NsOp σ ι (Option Errno)) {P : Option Errno → Ns σ ι → Prop} :
    Yields (withWrite mnt wantWrite body) s P ↔
      (∀ err, wantWrite = some err → P (some err) s) ∧
        (wantWrite = none → Yields body s P) := by
  cases wantWrite with
  | none => simp [withWrite]
  | some err => simp [withWrite]

/-- `lock_rename` returns the ancestor it traps, if the parents differ. -/
@[simp] theorem yields_lockRename (p₁ p₂ : ℕ) {P : Option ℕ → Ns σ ι → Prop} :
    Yields (lockRename V p₁ p₂) s P ↔
      P (if p₁ = p₂ then none else V.trap s.low p₁ p₂) s := by
  by_cases h : p₁ = p₂
  · simp [lockRename, h]
  · simp [lockRename, h]

/-- `unlock_rename` changes the ledger only. -/
@[simp] theorem yields_unlockRename (p₁ p₂ : ℕ) {P : Unit → Ns σ ι → Prop} :
    Yields (unlockRename p₁ p₂) s P ↔ P () s := by
  by_cases h : p₁ = p₂
  · simp [unlockRename, h]
  · simp [unlockRename, h]

end Yields

/-! ## The pieces that return -/

section Returns

/-- Following a pointer returns only if there is something behind it. -/
@[simp] theorem returns_deref {α : Type} (p : Option α) {P : α → Ns σ ι → Prop} :
    Returns (deref p : NsOp σ ι α) s P ↔ ∃ a, p = some a ∧ P a s := by
  cases p with
  | none =>
      refine iff_of_false (not_returns_fault _) ?_
      rintro ⟨a, ha, -⟩
      cases ha
  | some a =>
      show Returns (pure a) s P ↔ _
      rw [returns_pure]
      refine ⟨fun h => ⟨a, rfl, h⟩, ?_⟩
      rintro ⟨b, hb, h⟩
      cases hb
      exact h

/-- Following a `struct dentry *` returns only if the dentry is there. -/
@[simp] theorem returns_dentryAt (d : ℕ) {P : UpperDentry → Ns σ ι → Prop} :
    Returns (dentryAt d) s P ↔ ∃ e, s.dentries d = some e ∧ P e s := by
  simp [dentryAt]

/-- `wrapfs_get_lower_path` returns only if a path is stored. -/
@[simp] theorem returns_wrapfsGetLowerPath (d : ℕ) {P : LowerPath → Ns σ ι → Prop} :
    Returns (wrapfsGetLowerPath d) s P ↔ ∃ path, s.stored d = some path ∧ P path s := by
  simp [wrapfsGetLowerPath, pathGet]

/-- `wrapfs_put_lower_path` always returns. -/
@[simp] theorem returns_wrapfsPutLowerPath (path : LowerPath) {P : Unit → Ns σ ι → Prop} :
    Returns (wrapfsPutLowerPath path) s P ↔ P () s := by
  simp [wrapfsPutLowerPath, pathPut]

/-- A copy of attributes returns only if there is a lower inode. -/
@[simp] theorem returns_copyFrom (copy : Attr → Attr → Attr) (u : ℕ) (src : Option ι)
    {P : Unit → Ns σ ι → Prop} :
    Returns (copyFrom V copy u src) s P ↔
      ∃ x, src = some x ∧ P () (s.touch u fun a => copy a (V.iAttr s.low x)) := by
  simp [copyFrom, touchInode]

end Returns

/-! ## Quiet code -/

/-- The code takes nothing and changes nothing but attributes. -/
def Quiet {α : Type} (m : NsOp σ ι α) : Prop := Balanced Ns.toCore m

theorem quiet_deref {α : Type} (p : Option α) : Quiet (deref p : NsOp σ ι α) := by
  intro s held
  rw [ensures_deref]
  exact fun _ _ => ⟨rfl, rfl⟩

theorem quiet_dentryAt (d : ℕ) : Quiet (dentryAt d : NsOp σ ι UpperDentry) :=
  .bind .look fun _ => quiet_deref _

theorem quiet_touchInode (u : ℕ) (f : Attr → Attr) : Quiet (touchInode u f : NsOp σ ι Unit) :=
  .change fun _ => rfl

/-- All the `fsstack_copy_*` calls have this shape. -/
theorem quiet_copyFrom (copy : Attr → Attr → Attr) (u : ℕ) (src : Option ι) :
    Quiet (copyFrom V copy u src) :=
  .bind (quiet_deref _) fun _ => .bind .look fun _ => quiet_touchInode _ _

/-- The same with the lower inode read from the upper one. -/
theorem quiet_copyFromOwn (copy : Attr → Attr → Attr) (u : ℕ) :
    Quiet (copyFromOwn V copy u) :=
  .bind (.bind .look fun _ => .bind (quiet_deref _) fun _ => .pure _) fun _ =>
    quiet_copyFrom V _ _ _

/-- The attributes `wrapfs_iget` gives a new inode. -/
theorem quiet_initAttrs (u : ℕ) (lower : ι) : Quiet (initAttrs V u lower) :=
  .bind (quiet_copyFrom V _ _ _) fun _ => quiet_copyFrom V _ _ _

/-- The attributes of the parent after something was made in it. -/
theorem quiet_copyDirAttrs (dir : ℕ) (lowerDir : Option ι) :
    Quiet (copyDirAttrs V dir lowerDir) :=
  .bind (quiet_copyFrom V _ _ _) fun _ => quiet_copyFrom V _ _ _

/-- The attributes of both parents after a rename. -/
theorem quiet_copyRenameAttrs (oldDir newDir : ℕ) (lowerOldDir lowerNewDir : Option ι) :
    Quiet (copyRenameAttrs V oldDir newDir lowerOldDir lowerNewDir) :=
  .bind (quiet_copyDirAttrs V _ _) fun _ => .ite (quiet_copyDirAttrs V _ _) (.pure _)

/-- The attributes copied by a lookup that has found something. -/
theorem quiet_copyLookupAttrs (d parent : ℕ) : Quiet (copyLookupAttrs V d parent) := by
  refine .bind (quiet_dentryAt _) fun e => .bind ?_ fun _ => .bind (quiet_dentryAt _) fun p =>
    .bind (quiet_deref _) fun u => quiet_copyFromOwn V _ _
  cases e.inode with
  | none => exact .pure _
  | some u => exact quiet_copyFromOwn V _ _

/-! ## `wrapfs_interpose` -/

section Interpose

variable [DecidableEq ι]

/-- The state `wrapfs_interpose` succeeds in: the dentry is hashed with the inode `u` that
`wrapfs_iget` has returned, which has the attributes of `x` if it is a new one. -/
def Ns.interposed (s : Ns σ ι) (d : ℕ) (e : UpperDentry) (x : ι) (u : ℕ) (c : IgetCalls) :
    Ns σ ι :=
  (if (wrapfsIget s.hash x c).created then
      (s.touch u fun a => fsstackCopyAttrAll a (V.iAttr s.low x)).touch u fun a =>
        fsstackCopyInodeSize a (V.iAttr s.low x)
    else s).withCore
    ((s.setHash (wrapfsIget s.hash x c).hash).setDentry d
      (some { e with inode := some u, hashed := true }))

/-- **`wrapfs_interpose`, outcome by outcome**: the lower inode is of another file system,
`wrapfs_iget` fails, or the dentry gets its inode. -/
theorem yields_wrapfsInterpose_iff {d : ℕ} {e : UpperDentry} (hd : s.dentries d = some e)
    {path : LowerPath} {x : ι} (hx : V.dInode s.low path.dentry = some x) (c : IgetCalls)
    {P : Option Errno → Ns σ ι → Prop} :
    Yields (wrapfsInterpose V d path c) s P ↔
      if V.iSb x ≠ V.super then P (some .EXDEV) s
      else
        match (wrapfsIget s.hash x c).inode with
        | .error err => P (some err) (s.withCore (s.setHash (wrapfsIget s.hash x c).hash))
        | .ok u => P none (s.interposed V d e x u c) := by
  simp only [wrapfsInterpose, yields_bind, yields_look, yields_deref, hx, Option.some.injEq,
    forall_eq', yields_ite, yields_pure, yields_changeCore]
  by_cases hsb : V.iSb x ≠ V.super
  · rw [if_pos hsb, if_pos hsb]
  · rw [if_neg hsb, if_neg hsb]
    cases hinode : (wrapfsIget s.hash x c).inode with
    | error err => rw [yields_pure]
    | ok u =>
        cases hcreated : (wrapfsIget s.hash x c).created with
        | false => simp [dAdd, hd, Ns.interposed, hcreated, Ns.withCore, Core.setHash]
        | true =>
            simp [dAdd, initAttrs, hd, Ns.interposed, hcreated, Ns.withCore, Ns.touch,
              Core.setHash]

/-- `wrapfs_interpose` fails and at most leaves a new inode behind, or it hashes the
dentry with the inode that `wrapfs_iget` has returned. -/
theorem yields_wrapfsInterpose {d : ℕ} {e : UpperDentry}
    (hd : s.dentries d = some e) (path : LowerPath) (c : IgetCalls)
    {P : Option Errno → Ns σ ι → Prop}
    (hfail : ∀ lower err s', V.dInode s.low path.dentry = some lower →
      s'.toCore = s.toCore ∨ s'.toCore = s.setHash (wrapfsIget s.hash lower c).hash →
      P (some err) s')
    (hok : ∀ lower u s', V.dInode s.low path.dentry = some lower →
      V.iSb lower = V.super → (wrapfsIget s.hash lower c).inode = .ok u →
      s'.toCore = (s.setHash (wrapfsIget s.hash lower c).hash).setDentry d
        (some { e with inode := some u, hashed := true }) →
      P none s') :
    Yields (wrapfsInterpose V d path c) s P := by
  cases hx : V.dInode s.low path.dentry with
  | none =>
      simp only [wrapfsInterpose, yields_bind, yields_look, yields_deref, hx]
      intro lower hlower
      cases hlower
  | some lower =>
      rw [yields_wrapfsInterpose_iff V hd hx]
      split
      · exact hfail lower _ s hx (Or.inl rfl)
      · rename_i hsb
        cases hinode : (wrapfsIget s.hash lower c).inode with
        | error err => exact hfail lower err _ hx (Or.inr rfl)
        | ok u => exact hok lower u _ hx (not_not.mp hsb) hinode rfl

end Interpose

end Wrapfs.Namespace
