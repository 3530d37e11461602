import Mathlib
import Wrapfs.Namespace.Rules

/-!
# What the directory operations take and give back

What wrapfs should hold of the lower file system between operations is one reference on a lower
dentry and one on a lower mount for each upper dentry with a stored lower path, and nothing else
(`expectedRefs`).  Locks and write access to the lower mount are on the same ledger, and are
expected never to be held then.

Almost every operation is *balanced*: it gives back all it takes and leaves the stored paths alone
(`Balanced Ns.refView`).  The two that are not are

* the lookup, which leaves references behind exactly when it leaves a path in its dentry
  (`ensures_wrapfsLookup`): the references that `vfs_path_lookup` returns with are not put back
  but become those of the stored path, on the success path and on that for a name that is not
  there;
* the end of a dentry, which drops the references of the path it finds there, if any
  (`ensures_dFree`).

All of it holds over any lower file system, whatever its calls answer, and with anything else held
beside it.

## What the ledger depends on

`Ns.refView` is as much of a super block as the ledger depends on: of each dentry whether it will
be released and what private data it has, and how many dentries there are.  Attributes, inodes and
the lower tree are not in it, so that `Quiet` code is balanced for free (`Quiet.balanced`) and
most operations are balanced because all they touch is outside the view.

## Code that does not come back

A balanced operation that faults may hold anything.  One does, and it is not far-fetched:
`wrapfs_create` follows its `nd` argument while it holds the lower path, the lock of the lower
parent and write access to the mount, and a `mknod` of a regular file gives it `NULL`
(`wrapfsCreate_none`).
-/

namespace Wrapfs.Namespace

open Ledger

variable {σ ι : Type}

/-! ## What is expected to be held -/

/-- What the ledger depends on of a dentry, if it is live: whether it will be
released, and its private data. -/
abbrev Info : Type := Option (Bool × Option (Option LowerPath))

/-- The stored path. -/
def Info.stored (i : Info) : Option LowerPath := (i.bind Prod.snd).join

/-- The references that go with a stored path. -/
def refs : Option LowerPath → Multiset Res
  | none => 0
  | some path => .dentry path.dentry ::ₘ .mnt path.mnt ::ₘ 0

/-- The two references of a path that is there. -/
theorem refs_some_add (path : LowerPath) (held : Multiset Res) :
    refs (some path) + held = .dentry path.dentry ::ₘ .mnt path.mnt ::ₘ held := by
  simp [refs]

/-- The references that go with the stored paths of the dentries below `n`. -/
def expectedRefs (f : ℕ → Info) (n : ℕ) : Multiset Res :=
  ∑ d ∈ Finset.range n, refs (f d).stored

/-- A dentry as the ledger sees it. -/
def Core.info (k : Core σ ι) (d : ℕ) : Info := (k.dentries d).map fun e => (e.dOp, e.fsdata)

/-- What the ledger depends on. -/
def Ns.refView (s : Ns σ ι) : (ℕ → Info) × ℕ := (s.info, s.nextDentry)

/-- The stored path is part of it. -/
theorem Core.stored_eq_info (k : Core σ ι) (d : ℕ) : k.stored d = (k.info d).stored := by
  cases hd : k.dentries d with
  | none => simp [Core.stored, Info.stored, Core.info, hd]
  | some e => simp [Core.stored, Info.stored, Core.info, hd]

/-- A dentry that is live. -/
theorem Core.info_eq_some {k : Core σ ι} {d : ℕ} {b : Bool} {fs : Option (Option LowerPath)} :
    k.info d = some (b, fs) ↔ ∃ e, k.dentries d = some e ∧ e.dOp = b ∧ e.fsdata = fs := by
  simp [Core.info]

/-- One dentry is replaced. -/
theorem Core.info_setDentry (k : Core σ ι) (d : ℕ) (e : Option UpperDentry) :
    (k.setDentry d e).info = Function.update k.info d (e.map fun e => (e.dOp, e.fsdata)) := by
  funext d'
  by_cases h : d' = d
  · subst h
    simp [Core.info]
  · simp [Core.info, k.setDentry_of_ne h, Function.update_of_ne h]

/-- A dentry may be rewritten freely but for its `d_op` and private data. -/
theorem Core.info_setDentry_same (k : Core σ ι) {d : ℕ} {e e' : UpperDentry}
    (hd : k.dentries d = some e) (hop : e'.dOp = e.dOp) (hfs : e'.fsdata = e.fsdata) :
    (k.setDentry d (some e')).info = k.info := by
  rw [k.info_setDentry, Option.map_some, hop, hfs]
  refine Function.update_eq_self_iff.mpr ?_
  simp [Core.info, hd]

/-- Changing one dentry changes what is expected by its stored path. -/
theorem expectedRefs_update (f : ℕ → Info) {n d : ℕ} (hd : d < n) (i : Info) :
    expectedRefs (Function.update f d i) n + refs (f d).stored =
      expectedRefs f n + refs i.stored := by
  have hmem : d ∈ Finset.range n := Finset.mem_range.mpr hd
  have hrest : ∑ x ∈ (Finset.range n).erase d, refs (Function.update f d i x).stored =
      ∑ x ∈ (Finset.range n).erase d, refs (f x).stored := by
    refine Finset.sum_congr rfl fun x hx => ?_
    rw [Function.update_of_ne (Finset.ne_of_mem_erase hx)]
  rw [expectedRefs, expectedRefs, ← Finset.add_sum_erase _ _ hmem,
    ← Finset.add_sum_erase (Finset.range n) _ hmem, hrest, Function.update_self]
  abel

/-- Dentries are numbered in order, and a dentry with a stored path has its
`d_release`. -/
structure RefInv (f : ℕ → Info) (n : ℕ) : Prop where
  fresh : ∀ d, n ≤ d → f d = none
  dOp : ∀ d b path, f d = some (b, some (some path)) → b = true

section View

variable {f : ℕ → Info} {n d : ℕ}

/-- A live dentry has been numbered. -/
theorem RefInv.lt (h : RefInv f n) {x : Bool × Option (Option LowerPath)}
    (hd : f d = some x) : d < n := by
  by_contra hge
  rw [h.fresh d (Nat.le_of_not_lt hge)] at hd
  cases hd

/-- One dentry changes, and still has its `d_release` if it stores a path. -/
theorem RefInv.update (h : RefInv f n) (hd : d < n) {i : Info}
    (hi : ∀ b path, i = some (b, some (some path)) → b = true) :
    RefInv (Function.update f d i) n := by
  refine ⟨fun d' hd' => ?_, fun d' b path hd' => ?_⟩
  · have hne : d' ≠ d := Nat.ne_of_gt (Nat.lt_of_lt_of_le hd hd')
    rw [Function.update_of_ne hne]
    exact h.fresh d' hd'
  · by_cases hne : d' = d
    · subst hne
      rw [Function.update_self] at hd'
      exact hi b path hd'
    · rw [Function.update_of_ne hne] at hd'
      exact h.dOp d' b path hd'

/-- A new dentry has no stored path. -/
theorem RefInv.alloc (h : RefInv f n) :
    RefInv (Function.update f n (some (false, none))) (n + 1) ∧
      expectedRefs (Function.update f n (some (false, none))) (n + 1) = expectedRefs f n := by
  have hbelow : RefInv f (n + 1) :=
    ⟨fun d' hd' => h.fresh d' (Nat.le_of_succ_le hd'), h.dOp⟩
  refine ⟨hbelow.update (Nat.lt_succ_self n) nofun, ?_⟩
  have hnone : (f n).stored = none := by
    rw [h.fresh n le_rfl]
    rfl
  have hlast : expectedRefs f (n + 1) = expectedRefs f n := by
    rw [expectedRefs, Finset.sum_range_succ, hnone]
    exact add_zero _
  have hsum := expectedRefs_update f (Nat.lt_succ_self n) (some (false, none))
  rw [hnone, hlast] at hsum
  simpa [Info.stored, refs] using hsum

end View

/-! ## Balanced operations -/

section Balanced

variable (V : LowerVfs σ ι)

omit V in
/-- The ledger does not depend on attributes. -/
theorem Quiet.balanced {α : Type} {m : NsOp σ ι α} (hm : Quiet m) : Balanced Ns.refView m :=
  hm.comp fun k => (k.info, k.nextDentry)

/-- `d_add` changes neither `d_op` nor private data. -/
theorem balanced_dAdd (d u : ℕ) : Balanced Ns.refView (dAdd d u : NsOp σ ι Unit) := by
  intro s held
  simp only [dAdd, ensures_bind, ensures_dentryAt, ensures_changeCore]
  intro e he
  refine ⟨trivial, ?_⟩
  exact congrArg (·, s.nextDentry) (s.info_setDentry_same he rfl rfl)

/-- Neither does `d_drop`. -/
theorem balanced_dDrop (d : ℕ) : Balanced Ns.refView (dDrop d : NsOp σ ι Unit) := by
  intro s held
  simp only [dDrop, ensures_bind, ensures_dentryAt, ensures_changeCore]
  intro e he
  refine ⟨trivial, ?_⟩
  exact congrArg (·, s.nextDentry) (s.info_setDentry_same he rfl rfl)

/-- Write access is dropped on the only way out. -/
theorem balanced_withWrite (mnt : ℕ) (wantWrite : Option Errno)
    {body : NsOp σ ι (Option Errno)} (hbody : Balanced Ns.refView body) :
    Balanced Ns.refView (withWrite mnt wantWrite body) := by
  unfold withWrite
  cases wantWrite with
  | none => exact hbody.bracket _
  | some e => exact .pure _

variable [DecidableEq ι]

/-- `wrapfs_interpose` takes no references: those of the path are its caller's. -/
theorem balanced_wrapfsInterpose (d : ℕ) (path : LowerPath) (c : IgetCalls) :
    Balanced Ns.refView (wrapfsInterpose V d path c) := by
  refine .bind .look fun s => .bind (quiet_deref _).balanced fun lower => .ite (.pure _) ?_
  refine .bind (.change fun _ => rfl) fun _ => ?_
  cases (wrapfsIget s.hash lower c).inode with
  | error e => exact .pure _
  | ok u =>
      refine .bind (.ite (quiet_initAttrs V _ _).balanced (.pure _)) fun _ => ?_
      exact .bind (balanced_dAdd _ _) fun _ => .pure _

/-- The lower call and what follows it. -/
theorem balanced_newUnderWrite (kind : NewKind) {finish : NsOp σ ι Unit}
    (hfinish : Balanced Ns.refView finish) (dir d : ℕ) (path : LowerPath) (parent : ℕ)
    (c : NewCalls) : Balanced Ns.refView (newUnderWrite V kind finish dir d path parent c) := by
  refine .bind .look fun s => .bind (.change fun _ => rfl) fun _ => ?_
  cases (V.vfsNew kind s.low (V.dInode s.low parent) path.dentry c.vfs).1 with
  | some e => exact .pure _
  | none =>
      refine .bind (balanced_wrapfsInterpose V _ _ _) fun err => ?_
      cases err with
      | some e => exact .pure _
      | none =>
          refine .bind (quiet_copyFromOwn V _ _).balanced fun _ => .bind .look fun _ => ?_
          exact .bind (quiet_copyFrom V _ _ _).balanced fun _ => .bind hfinish fun _ => .pure _

omit [DecidableEq ι] in
/-- The path, the lock and the write access are given back, whatever is done under them. -/
theorem balanced_underLockedParent (d : ℕ) (wantWrite : Option Errno)
    {body : LowerPath → ℕ → NsOp σ ι (Option Errno)}
    (hbody : ∀ path parent, Balanced Ns.refView (body path parent)) :
    Balanced Ns.refView (underLockedParent V d wantWrite body) := by
  intro s held
  simp only [underLockedParent, ensures_bind, ensures_wrapfsGetLowerPath, ensures_lockParent]
  intro path hpath
  refine (balanced_withWrite path.mnt wantWrite (hbody path _) s _).mono ?_
  rintro err s' _ ⟨rfl, hs'⟩
  simp [wrapfsPutLowerPath, pathPut, hs']

/-- **`wrapfs_symlink`, `wrapfs_mkdir` and `wrapfs_mknod`.** -/
theorem balanced_wrapfsNew (kind : NewKind) {finish : NsOp σ ι Unit}
    (hfinish : Balanced Ns.refView finish) (dir d : ℕ) (c : NewCalls) :
    Balanced Ns.refView (wrapfsNew V kind finish dir d c) :=
  balanced_underLockedParent V d c.wantWrite fun path parent =>
    balanced_newUnderWrite V kind hfinish dir d path parent c

/-- **`wrapfs_create`.** -/
theorem balanced_wrapfsCreate (dir d : ℕ) (nd : Option LookupFlags) (c : NewCalls) :
    Balanced Ns.refView (wrapfsCreate V dir d nd c) :=
  balanced_underLockedParent V d c.wantWrite fun path parent =>
    .bind (quiet_deref _).balanced fun _ =>
      balanced_newUnderWrite V .create (.pure _) dir d path parent c

/-- **A creation without `nd`.**  If the lower mount can be written to, `wrapfs_create` follows
the `NULL` pointer with the parent locked, and none of what it took is ever given back. -/
theorem wrapfsCreate_none {s : Ns σ ι} {d : ℕ} {path : LowerPath} (hpath : s.stored d = some path)
    (dir : ℕ) {c : NewCalls} (hwrite : c.wantWrite = none) :
    wrapfsCreate V dir d none c s = .fault .badPointer
      [.acquire (.mnt path.mnt), .acquire (.dentry path.dentry),
        .acquire (.dentry (V.dParent s.low path.dentry)),
        .acquire (.iMutex (V.dParent s.low path.dentry)), .acquire (.mntWrite path.mnt)] := by
  have hget : wrapfsGetLowerPath d s =
      .done path s [.acquire (.mnt path.mnt), .acquire (.dentry path.dentry)] := by
    show ((deref (s.stored d) >>= fun path => pathGet path >>= fun _ => pure path) s).after [] = _
    rw [hpath]
    rfl
  rw [wrapfsCreate, underLockedParent, bind_of_done hget, hwrite]
  rfl

/-- The lower `vfs_link` and what follows it. -/
theorem balanced_linkUnderWrite (uOld dir d : ℕ) (oldPath newPath : LowerPath)
    (parent fileSizeSave : ℕ) (c : NewCalls) :
    Balanced Ns.refView
      (linkUnderWrite V uOld dir d oldPath newPath parent fileSizeSave c) := by
  refine .bind .look fun s => .bind (.change fun _ => rfl) fun _ => ?_
  cases (V.vfsLink s.low oldPath.dentry (V.dInode s.low parent) newPath.dentry c.vfs).1 with
  | some e => exact .pure _
  | none =>
      refine .ite (.pure _) (.bind (balanced_wrapfsInterpose V _ _ _) fun err => ?_)
      cases err with
      | some e => exact .pure _
      | none =>
          refine .bind (quiet_copyFrom V _ _ _).balanced fun _ => ?_
          refine .bind (quiet_copyFrom V _ _ _).balanced fun _ => ?_
          refine .bind (quiet_copyFromOwn V _ _).balanced fun _ => ?_
          refine .bind (quiet_dentryAt _).balanced fun e => .bind (quiet_deref _).balanced fun u => ?_
          exact .bind (quiet_touchInode _ _).balanced fun _ => .pure _

/-- **`wrapfs_link`** holds two lower paths, and puts them in the order it got them. -/
theorem balanced_wrapfsLink (old dir d : ℕ) (c : NewCalls) :
    Balanced Ns.refView (wrapfsLink V old dir d c) := by
  intro s held
  simp only [wrapfsLink, ensures_bind, ensures_dentryAt, ensures_deref, ensures_look,
    ensures_wrapfsGetLowerPath, ensures_lockParent]
  intro eOld _ uOld _ oldPath _ newPath _
  refine (balanced_withWrite newPath.mnt c.wantWrite
    (balanced_linkUnderWrite V uOld dir d oldPath newPath _ _ c) s _).mono ?_
  rintro err s' _ ⟨rfl, hs'⟩
  simp [wrapfsPutLowerPath, pathPut, hs']

omit [DecidableEq ι]

theorem balanced_unlinkDeleted (dir d : ℕ) (lowerDir : Option ι) :
    Balanced Ns.refView (unlinkDeleted V dir d lowerDir) := by
  refine .bind (quiet_copyFrom V _ _ _).balanced fun _ => ?_
  refine .bind (quiet_copyFrom V _ _ _).balanced fun _ => ?_
  refine .bind (quiet_dentryAt _).balanced fun e => .bind (quiet_deref _).balanced fun u => ?_
  refine .bind (quiet_copyFromOwn V _ _).balanced fun _ => .bind .look fun _ => ?_
  exact .bind (quiet_touchInode _ _).balanced fun _ => balanced_dDrop _

/-- The lower `vfs_unlink` and what follows it. -/
theorem balanced_unlinkUnderWrite (dir d : ℕ) (lowerDir : Option ι) (path : LowerPath)
    (c : RemoveCalls) : Balanced Ns.refView (unlinkUnderWrite V dir d lowerDir path c) := by
  refine .bind .look fun s => .bind (.change fun _ => rfl) fun _ => ?_
  split
  · exact .pure _
  · exact .bind (balanced_unlinkDeleted V _ _ _) fun _ => .pure _

/-- **`wrapfs_unlink`** holds a reference on the lower dentry of its own as well. -/
theorem balanced_wrapfsUnlink (dir d : ℕ) (c : RemoveCalls) :
    Balanced Ns.refView (wrapfsUnlink V dir d c) := by
  intro s held
  simp only [wrapfsUnlink, ensures_bind, ensures_wrapfsLowerInode,
    ensures_wrapfsGetLowerPath, ensures_acquire, ensures_lockParent]
  intro inode _ path _
  refine (balanced_withWrite path.mnt c.wantWrite
    (balanced_unlinkUnderWrite V dir d inode.lower path c) s _).mono ?_
  rintro err s' _ ⟨rfl, hs'⟩
  simp [wrapfsPutLowerPath, pathPut, hs']

/-- The lower `vfs_rmdir` and what follows it. -/
theorem balanced_rmdirUnderWrite (dir d : ℕ) (path : LowerPath) (parent : ℕ)
    (c : RemoveCalls) : Balanced Ns.refView (rmdirUnderWrite V dir d path parent c) := by
  refine .bind .look fun s => .bind (.change fun _ => rfl) fun _ => ?_
  cases (V.vfsRmdir s.low (V.dInode s.low parent) path.dentry c.vfs).1 with
  | some e => exact .pure _
  | none =>
      refine .bind (balanced_dDrop _) fun _ => .bind (quiet_dentryAt _).balanced fun e => ?_
      refine .bind ?_ fun _ => ?_
      · cases e.inode with
        | none => exact .pure _
        | some u => exact (quiet_touchInode _ _).balanced
      · refine .bind (quiet_copyFrom V _ _ _).balanced fun _ => ?_
        refine .bind (quiet_copyFrom V _ _ _).balanced fun _ => ?_
        exact .bind (quiet_copyFrom V _ _ _).balanced fun _ => .pure _

/-- **`wrapfs_rmdir`.** -/
theorem balanced_wrapfsRmdir (dir d : ℕ) (c : RemoveCalls) :
    Balanced Ns.refView (wrapfsRmdir V dir d c) := by
  intro s held
  simp only [wrapfsRmdir, ensures_bind, ensures_wrapfsGetLowerPath, ensures_lockParent]
  intro path _
  refine (balanced_withWrite path.mnt c.wantWrite
    (balanced_rmdirUnderWrite V dir d path _ c) s _).mono ?_
  rintro err s' _ ⟨rfl, hs'⟩
  simp [wrapfsPutLowerPath, pathPut, hs']

theorem balanced_renameUnderWrite (oldDir newDir : ℕ) (oldPath newPath : LowerPath)
    (lowerOldDir lowerNewDir : ℕ) (c : RenameCalls) :
    Balanced Ns.refView
      (renameUnderWrite V oldDir newDir oldPath newPath lowerOldDir lowerNewDir c) := by
  refine .bind .look fun s => .bind (.change fun _ => rfl) fun _ => ?_
  split
  · exact .pure _
  · exact .bind (quiet_copyRenameAttrs V _ _ _ _).balanced fun _ => .pure _

/-- The two checks against the trapped ancestor leave by the same way out. -/
theorem balanced_renameLocked (oldDir newDir : ℕ) (oldPath newPath : LowerPath)
    (lowerOldDir lowerNewDir : ℕ) (trap : Option ℕ) (c : RenameCalls) :
    Balanced Ns.refView
      (renameLocked V oldDir newDir oldPath newPath lowerOldDir lowerNewDir trap c) :=
  .ite (.pure _) (.ite (.pure _) (balanced_withWrite _ _ (balanced_withWrite _ _
    (balanced_renameUnderWrite V _ _ _ _ _ _ _))))

/-- **`wrapfs_rename`** locks two parents, or one if they are the same. -/
theorem balanced_wrapfsRename (oldDir old newDir new : ℕ) (c : RenameCalls) :
    Balanced Ns.refView (wrapfsRename V oldDir old newDir new c) := by
  intro s held
  simp only [wrapfsRename, ensures_bind, ensures_wrapfsGetLowerPath, ensures_look,
    ensures_acquire, lockRename, ensures_ite, ensures_pure]
  intro oldPath _ newPath _
  -- one directory or two: one mutex or two and the rename mutex
  split
  · refine (balanced_renameLocked V oldDir newDir oldPath newPath _ _ _ c s _).mono ?_
    rintro err s' _ ⟨rfl, hs'⟩
    rename_i hdir
    simp [unlockRename, hdir, wrapfsPutLowerPath, pathPut, hs']
  · refine (balanced_renameLocked V oldDir newDir oldPath newPath _ _ _ c s _).mono ?_
    rintro err s' _ ⟨rfl, hs'⟩
    rename_i hdir
    simp [unlockRename, hdir, wrapfsPutLowerPath, pathPut, hs']

/-- **`wrapfs_readlink`.** -/
theorem balanced_wrapfsReadlink (d : ℕ) (readlink : Except Errno ℕ) :
    Balanced Ns.refView (wrapfsReadlink V d readlink) := by
  intro s held
  simp only [wrapfsReadlink, ensures_bind, ensures_wrapfsGetLowerPath, ensures_look,
    ensures_deref]
  intro path _ lower _
  cases (if V.hasReadlink lower then readlink else .error .EINVAL : Except Errno ℕ) with
  | error e => simp [wrapfsPutLowerPath, pathPut]
  | ok count =>
      simp only [ensures_bind, ensures_dentryAt, ensures_deref, ensures_copyFrom]
      intro e _ u _ x _
      simp only [wrapfsPutLowerPath, pathPut, ensures_bind, ensures_release_head, ensures_pure]
      exact ⟨trivial, rfl⟩

/-- The lower `i_mutex` is held over `notify_change` only. -/
theorem balanced_setattrLower (u : ℕ) (lower : Option ι) (path : LowerPath) (ia : Iattr)
    (c : SetattrCalls) : Balanced Ns.refView (setattrLower V u lower path ia c) := by
  intro s held
  simp only [setattrLower, ensures_bind, ensures_acquire, ensures_look, ensures_changeCore,
    ensures_release_head]
  cases (V.notifyChange s.low path.dentry (lowerIattr ia) c.notifyChange).1 with
  | some e =>
      rw [ensures_pure]
      exact ⟨rfl, rfl⟩
  | none =>
      simp only [ensures_bind, ensures_copyFrom, ensures_pure]
      exact fun _ _ => ⟨trivial, rfl⟩

theorem balanced_setattrUnderPath (u : ℕ) (lower : Option ι) (path : LowerPath) (ia : Iattr)
    (c : SetattrCalls) : Balanced Ns.refView (setattrUnderPath V u lower path ia c) := by
  unfold setattrUnderPath
  cases ia.size with
  | none => exact balanced_setattrLower V _ _ _ _ _
  | some size =>
      cases c.newsizeOk with
      | some e => exact .pure _
      | none => exact .bind (quiet_touchInode _ _).balanced fun _ => balanced_setattrLower V _ _ _ _ _

/-- **`wrapfs_setattr`.** -/
theorem balanced_wrapfsSetattr (d : ℕ) (ia : Iattr) (c : SetattrCalls) :
    Balanced Ns.refView (wrapfsSetattr V d ia c) := by
  refine .bind (quiet_dentryAt _).balanced fun e => .bind (quiet_deref _).balanced fun u => ?_
  cases c.changeOk with
  | some e => exact .pure _
  | none =>
      intro s held
      simp only [ensures_bind, ensures_wrapfsGetLowerPath, ensures_wrapfsLowerInode]
      intro path _ inode _
      refine (balanced_setattrUnderPath V u inode.lower path ia c s _).mono ?_
      rintro err s' _ ⟨rfl, hs'⟩
      simp [wrapfsPutLowerPath, pathPut, hs']

/-- **`wrapfs_d_revalidate`.** -/
theorem balanced_wrapfsDRevalidate (d : ℕ) (nd : Option LookupFlags)
    (lowerRevalidate : Option ℤ) :
    Balanced Ns.refView (wrapfsDRevalidate d nd lowerRevalidate : NsOp σ ι ℤ) := by
  refine .ite (.pure _) ?_
  intro s held
  simp only [ensures_bind, ensures_wrapfsGetLowerPath]
  intro path _
  cases lowerRevalidate with
  | none => simp [wrapfsPutLowerPath, pathPut]
  | some ret => simp [wrapfsPutLowerPath, pathPut]

end Balanced

/-! ## The two operations that are not -/

section Lookup

variable {s : Ns σ ι} {held : Multiset Res} {d : ℕ} {e : UpperDentry}

/-- `wrapfs_set_lower_path` on a dentry with private data. -/
theorem ensures_wrapfsSetLowerPath {fs : Option LowerPath} (hd : s.dentries d = some e)
    (hfs : e.fsdata = some fs) (path : LowerPath)
    {Q : Unit → Ns σ ι → Multiset Res → Prop} :
    Ensures (wrapfsSetLowerPath d path) s held Q ↔
      Q () (s.withCore (s.setDentry d (some { e with fsdata := some (some path) }))) held := by
  simp [wrapfsSetLowerPath, hd, hfs]

/-- `wrapfs_put_reset_lower_path` gives back the references of the stored path. -/
theorem ensures_wrapfsPutResetLowerPath {fs : Option LowerPath} (hd : s.dentries d = some e)
    (hfs : e.fsdata = some fs) {Q : Unit → Ns σ ι → Multiset Res → Prop} :
    Ensures (wrapfsPutResetLowerPath d) s (refs fs + held) Q ↔
      Q () (s.withCore (s.setDentry d (some { e with fsdata := some none }))) held := by
  cases fs with
  | none => simp [wrapfsPutResetLowerPath, hd, hfs, refs]
  | some path => simp [wrapfsPutResetLowerPath, hd, hfs, refs, pathPut]

/-- A lookup has changed dentry `d` alone, and what is held has grown by the
references of the path it has stored there, if any. -/
def LookedUp (s : Ns σ ι) (d : ℕ) (held : Multiset Res) (s' : Ns σ ι)
    (held' : Multiset Res) : Prop :=
  ∃ b fs, s'.refView = (Function.update s.info d (some (b, fs)), s.nextDentry) ∧
    held' = refs fs.join + held ∧ (fs.join ≠ none → b = true)

/-- Nothing has happened to a dentry without a stored path. -/
theorem lookedUp_of_refView {s' : Ns σ ι} (hd : s.dentries d = some e)
    (hfs : e.fsdata.join = none) (h : s'.refView = s.refView) :
    LookedUp s d held s' held := by
  refine ⟨e.dOp, e.fsdata, ?_, ?_, fun hne => absurd hfs hne⟩
  · have hsame : Function.update s.info d (some (e.dOp, e.fsdata)) = s.info :=
      Function.update_eq_self_iff.mpr (by simp [Core.info, hd])
    rw [h, hsame]
    rfl
  · rw [hfs]
    exact (zero_add held).symm

/-- Steps before a lookup that change dentry `d` alone. -/
theorem LookedUp.of_update {t s' : Ns σ ι} {held' : Multiset Res} {i : Info}
    (h : LookedUp t d held s' held')
    (ht : t.refView = (Function.update s.info d i, s.nextDentry)) :
    LookedUp s d held s' held' := by
  obtain ⟨b, fs, hview, hheld, hop⟩ := h
  refine ⟨b, fs, ?_, hheld, hop⟩
  have hinfo : t.info = Function.update s.info d i := congrArg Prod.fst ht
  have hnext : t.nextDentry = s.nextDentry := congrArg Prod.snd ht
  rw [hview, hinfo, hnext, Function.update_idem]

/-- Steps after a lookup that the ledger does not depend on. -/
theorem LookedUp.of_refView {s' s'' : Ns σ ι} {held' : Multiset Res}
    (h : LookedUp s d held s' held') (hview : s''.refView = s'.refView) :
    LookedUp s d held s'' held' := by
  obtain ⟨b, fs, hs', hheld, hop⟩ := h
  exact ⟨b, fs, hview.trans hs', hheld, hop⟩

/-- One dentry is replaced. -/
theorem refView_setDentry (s : Ns σ ι) (d : ℕ) (e : Option UpperDentry) :
    (s.withCore (s.setDentry d e)).refView =
      (Function.update s.info d (e.map fun e => (e.dOp, e.fsdata)), s.nextDentry) :=
  congrArg (·, s.nextDentry) (s.info_setDentry d e)

/-- The stored path takes over the references of the lookup that found it. -/
theorem ensures_setupLower (hd : s.dentries d = some e) (hop : e.dOp = true)
    (hfs : e.fsdata = some none) (lower mnt : ℕ) (flags : LookupFlags) :
    Ensures (setupLower d lower mnt flags) s (.dentry lower ::ₘ held) fun _ s' held' =>
      LookedUp s d held s' held' := by
  simp only [setupLower, ensures_bind, ensures_acquire, ensures_wrapfsSetLowerPath hd hfs,
    ensures_pure]
  refine ⟨e.dOp, some (some ⟨lower, mnt⟩), refView_setDentry s d _, ?_, fun _ => hop⟩
  simp [refs, Multiset.cons_swap]

variable (V : LowerVfs σ ι)

/-- The lower dentry that is stored is a new one, and the reference on it is that of `d_alloc`. -/
theorem ensures_lookupNegative (hd : s.dentries d = some e) (hop : e.dOp = true)
    (hfs : e.fsdata = some none) (name : String) (flags : LookupFlags)
    (lowerParent : LowerPath) (lowerAlloc : Bool) :
    Ensures (lookupNegative V d name flags lowerParent lowerAlloc) s held fun _ s' held' =>
      LookedUp s d held s' held' := by
  simp only [lookupNegative, ensures_bind, ensures_look]
  cases V.dLookup s.low lowerParent.dentry name with
  | some lower =>
      rw [ensures_bind, ensures_acquire]
      exact ensures_setupLower hd hop hfs _ _ _
  | none =>
      rw [ensures_ite]
      split
      · simp only [ensures_bind, ensures_changeCore, ensures_acquire]
        set t := s.withCore (s.setLow (V.dAllocNegative s.low lowerParent.dentry name).2)
        have ht : t.dentries d = some e := hd
        exact ensures_setupLower ht hop hfs _ _ _
      · rw [ensures_pure]
        exact lookedUp_of_refView hd (by rw [hfs]; rfl) rfl

variable [DecidableEq ι]

/-- The references of the lookup go to the stored path, or are dropped with it when
`wrapfs_interpose` fails. -/
theorem ensures_lookupPositive (hd : s.dentries d = some e) (hop : e.dOp = true)
    (hfs : e.fsdata = some none) (path : LowerPath) (c : IgetCalls) :
    Ensures (lookupPositive V d path c) s held fun _ s' held' =>
      LookedUp s d held s' held' := by
  simp only [lookupPositive, pathGet, ensures_bind, ensures_acquire,
    ensures_wrapfsSetLowerPath hd hfs]
  set t := s.withCore (s.setDentry d (some { e with fsdata := some (some path) }))
  have ht : t.refView = (Function.update s.info d (some (e.dOp, some (some path))),
      s.nextDentry) := refView_setDentry s d _
  refine (balanced_wrapfsInterpose V d path c t _).mono ?_
  rintro err t' _ ⟨rfl, ht'⟩
  cases err with
  | none =>
      rw [ensures_pure]
      exact ⟨e.dOp, some (some path), ht'.trans ht, (refs_some_add path held).symm,
        fun _ => hop⟩
  | some err =>
      have hinfo : t'.info d = some (e.dOp, some (some path)) := by
        have hupdate : t'.info = Function.update s.info d (some (e.dOp, some (some path))) :=
          congrArg Prod.fst (ht'.trans ht)
        rw [hupdate, Function.update_self]
      obtain ⟨e', he', hop', hfs'⟩ := Core.info_eq_some.mp hinfo
      rw [ensures_bind, ← refs_some_add]
      refine (ensures_wrapfsPutResetLowerPath he' hfs').mpr ?_
      rw [ensures_pure]
      refine LookedUp.of_update (t := t') ?_ (ht'.trans ht)
      exact ⟨e'.dOp, some none, refView_setDentry t' d _, (zero_add held).symm,
        fun h => absurd rfl h⟩

/-- `__wrapfs_lookup`. -/
theorem ensures_wrapfsLookupLower (hd : s.dentries d = some e) (hfs : e.fsdata = some none)
    (flags : LookupFlags) (lowerParent : LowerPath) (c : LookupCalls) :
    Ensures (wrapfsLookupLower V d flags lowerParent c) s held fun _ s' held' =>
      LookedUp s d held s' held' := by
  simp only [wrapfsLookupLower, ensures_bind, ensures_dentryAt, ensures_changeCore]
  intro e' he'
  obtain rfl : e = e' := Option.some.inj (hd.symm.trans he')
  set e₁ : UpperDentry := { e with dOp := true }
  set s₁ := s.withCore (s.setDentry d (some e₁))
  have hs₁ : s₁.refView = (Function.update s.info d (some (true, e.fsdata)), s.nextDentry) :=
    refView_setDentry s d _
  have hd₁ : s₁.dentries d = some e₁ := s.setDentry_self d _
  have hafter : ∀ {s' held'}, LookedUp s₁ d held s' held' → LookedUp s d held s' held' :=
    fun h => h.of_update hs₁
  rw [ensures_ite]
  split
  · rw [ensures_pure]
    exact hafter (lookedUp_of_refView hd₁ (by simp [e₁, hfs]) rfl)
  · simp only [ensures_bind, ensures_look, ensures_changeCore]
    set call := V.vfsPathLookup s₁.low lowerParent e.name c.pathLookup
    set s₂ := s₁.withCore (s₁.setLow call.2)
    have hd₂ : s₂.dentries d = some e₁ := hd₁
    have hafter₂ : ∀ {s' held'}, LookedUp s₂ d held s' held' → LookedUp s d held s' held' :=
      fun h => h.of_update hs₁
    cases call.1 with
    | ok path =>
        exact (ensures_lookupPositive V hd₂ rfl hfs path c.iget).mono fun _ _ _ => hafter₂
    | error err =>
        rw [ensures_ite]
        split
        · rw [ensures_pure]
          exact hafter₂ (lookedUp_of_refView hd₂ (by simp [e₁, hfs]) rfl)
        · exact (ensures_lookupNegative V hd₂ rfl hfs e.name flags lowerParent
            c.lowerAlloc).mono fun _ _ _ => hafter₂

/-- `wrapfs_lookup` under the lower path of the parent, which is put back. -/
theorem ensures_lookupUnderParent (hd : s.dentries d = some e) (hfs : e.fsdata = none)
    (parent : ℕ) (flags : LookupFlags) (lowerParent : LowerPath) (c : LookupCalls) :
    Ensures (lookupUnderParent V d parent flags lowerParent c) s held fun _ s' held' =>
      LookedUp s d held s' held' := by
  simp only [lookupUnderParent, newDentryPrivateData, ensures_bind, ensures_ite]
  split
  · simp only [ensures_dentryAt, ensures_changeCore, ensures_bind, ensures_pure]
    intro e' he'
    obtain rfl : e = e' := Option.some.inj (hd.symm.trans he')
    set e₁ : UpperDentry := { e with fsdata := some none }
    set s₁ := s.withCore (s.setDentry d (some e₁))
    have hs₁ : s₁.refView = (Function.update s.info d (some (e.dOp, some none)),
        s.nextDentry) := refView_setDentry s d _
    have hd₁ : s₁.dentries d = some e₁ := s.setDentry_self d _
    refine (ensures_wrapfsLookupLower V hd₁ rfl flags lowerParent c).mono ?_
    intro err s' held' hs'
    have hs' : LookedUp s d held s' held' := hs'.of_update hs₁
    cases err with
    | some err =>
        rw [ensures_pure]
        exact hs'
    | none =>
        rw [ensures_bind]
        refine ((quiet_copyLookupAttrs V d parent).balanced s' held').mono ?_
        rintro _ s'' _ ⟨rfl, hview⟩
        rw [ensures_pure]
        exact hs'.of_refView hview
  · simp only [ensures_pure]
    exact lookedUp_of_refView hd (by rw [hfs]; rfl) rfl

/-- `wrapfs_lookup` of a new dentry. -/
theorem ensures_wrapfsLookup (hd : s.dentries d = some e) (hfs : e.fsdata = none)
    (nd : Option LookupFlags) (c : LookupCalls) :
    Ensures (wrapfsLookup V d nd c) s held fun _ s' held' => LookedUp s d held s' held' := by
  cases nd with
  | none => exact ensures_fault _
  | some flags =>
      simp only [wrapfsLookup, ensures_bind, ensures_dentryAt, ensures_acquire,
        ensures_wrapfsGetLowerPath]
      intro e' he' lowerParent _
      obtain rfl : e = e' := Option.some.inj (hd.symm.trans he')
      refine (ensures_lookupUnderParent V hd hfs e.parent flags lowerParent c).mono ?_
      rintro err s' _ ⟨b, fs, hview, rfl, hop⟩
      -- the references left behind are on top of those of the parent
      cases hjoin : fs.join with
      | none =>
          simp only [wrapfsPutLowerPath, pathPut, refs, zero_add, ensures_bind,
            ensures_release_head, ensures_pure]
          exact ⟨b, fs, hview, by rw [hjoin, refs, zero_add], hop⟩
      | some path =>
          simp only [wrapfsPutLowerPath, pathPut, refs_some_add, ensures_bind,
            ensures_release_third, ensures_pure]
          exact ⟨b, fs, hview, by rw [hjoin, refs_some_add], hop⟩

end Lookup

/-- The end of a dentry: the references of its stored path are given back. -/
theorem ensures_dFree {s : Ns σ ι} {held : Multiset Res} {d : ℕ} {e : UpperDentry}
    (hd : s.dentries d = some e) (hop : e.fsdata.join ≠ none → e.dOp = true) :
    Ensures (dFree d) s (refs e.fsdata.join + held) fun _ s' held' =>
      s'.refView = (Function.update s.info d none, s.nextDentry) ∧ held' = held := by
  simp only [dFree, ensures_bind, ensures_dentryAt, ensures_ite]
  intro e' he'
  obtain rfl : e = e' := Option.some.inj (hd.symm.trans he')
  split
  · cases hfs : e.fsdata with
    | none =>
        -- there is no private data to follow
        simp [wrapfsDRelease, wrapfsPutResetLowerPath, hd, hfs]
    | some fs =>
        rw [wrapfsDRelease, ensures_bind, Option.join_some,
          ensures_wrapfsPutResetLowerPath hd hfs]
        simp only [ensures_bind, ensures_dentryAt, ensures_changeCore, Ns.withCore_toCore,
          Core.setDentry_self, Core.setDentry_setDentry]
        rintro e₁ -
        exact ⟨refView_setDentry s d none, trivial⟩
  · rename_i hno
    have hjoin : e.fsdata.join = none := by
      by_contra hne
      exact hno (hop hne)
    rw [ensures_pure, ensures_changeCore, hjoin, refs, zero_add]
    exact ⟨refView_setDentry s d none, rfl⟩

end Wrapfs.Namespace
