import Wrapfs.Namespace.FailedMake

/-!
# The attributes of a parent directory

An operation that changes a lower directory has to bring the new size, times and link count of
that directory to the upper one.  The eight operations each say for themselves where the
attributes come from:

| operation                    | times        | size             | link count    |
|------------------------------|--------------|------------------|---------------|
| `create`, `symlink`, `mknod` | `dir`        | locked parent    | –             |
| `mkdir`                      | `dir`        | locked parent    | `dir`         |
| `link`                       | the new file | the new file     | –             |
| `unlink`                     | `dir`        | `dir`            | –             |
| `rmdir`, `rename`            | locked parent| locked parent    | locked parent |

Here `dir` stands for `wrapfs_lower_inode(dir)`, the lower inode of the upper directory, and the
locked parent for the parent of the lower dentry, which the operation has locked.  The two are one
directory as long as nobody changes the lower tree around wrapfs.

## What is asked

`InStep` is what all of them aim at: the upper directory has the size, the times and the link
count of its own lower directory.  It is asked of the operations that return 0, in a state in
which the directory was in step before (`ParentReady`), with everything there that the code
follows.

## When it is met

`parents_inStep_iff` says when they get there, for any lower file system; of its calls it is only
assumed that the directory they work in does not become negative, and that what `vfs_link` links
is not that directory.  The condition, `DirOp.Mirrors`, is read off the table: what is copied must
be right at its source, and what is not copied must not have changed.  It speaks of the lower
state after the lower call, so it can be decided for a given lower file system without running the
operation.

For `wrapfs_link` it is a strange one.  The size and times it gives to the directory are those of
the *new file*: the code passes the inode that the lower dentry has become where the others pass
the directory.  So a link is only right if the file happens to agree with the directory.

Each operation has its own lemma, and these are put together from one lemma for each copy.  Where
an operation copies twice to one directory, as a rename inside it does, the second copy decides.
-/

namespace Wrapfs.Namespace

open Ledger

/-! ## Directories in step -/

/-- Two inodes agree in what `fsstack_copy_inode_size` and `fsstack_copy_attr_times` copy. -/
structure SameSizeTimes (a b : Attr) : Prop where
  size : a.size = b.size
  mtime : a.mtime = b.mtime
  ctime : a.ctime = b.ctime

/-- They agree in what a directory shows of its contents. -/
structure SameDir (a b : Attr) : Prop extends SameSizeTimes a b where
  nlink : a.nlink = b.nlink

theorem SameDir.refl (a : Attr) : SameDir a a := ⟨⟨rfl, rfl, rfl⟩, rfl⟩

theorem SameDir.symm {a b : Attr} (h : SameDir a b) : SameDir b a :=
  ⟨⟨h.size.symm, h.mtime.symm, h.ctime.symm⟩, h.nlink.symm⟩

theorem SameDir.trans {a b c : Attr} (h : SameDir a b) (h' : SameDir b c) : SameDir a c :=
  ⟨⟨h.size.trans h'.size, h.mtime.trans h'.mtime, h.ctime.trans h'.ctime⟩,
    h.nlink.trans h'.nlink⟩

variable {σ ι : Type}

section Defs

variable (V : LowerVfs σ ι)

/-- The upper directory shows the attributes of its own lower directory. -/
def InStep (s : Ns σ ι) (dir : ℕ) : Prop :=
  ∀ x, s.hash.lowerOf dir = some x → SameDir (s.attr dir) (V.iAttr s.low x)

/-- The operations that change a directory. -/
inductive DirOp where
  | make (op : MakeOp) (dir d : ℕ) (c : NewCalls)
  | unlink (dir d : ℕ) (c : RemoveCalls)
  | rmdir (dir d : ℕ) (c : RemoveCalls)
  | rename (oldDir old newDir new : ℕ) (c : RenameCalls)

/-- The code that is run. -/
def runDirOp [DecidableEq ι] : DirOp → NsOp σ ι (Option Errno)
  | .make op dir d c => runMake V dir d c op
  | .unlink dir d c => wrapfsUnlink V dir d c
  | .rmdir dir d c => wrapfsRmdir V dir d c
  | .rename oldDir old newDir new c => wrapfsRename V oldDir old newDir new c

/-- The upper directories whose lower directories change. -/
def DirOp.parents : DirOp → List ℕ
  | .make _ dir _ _ => [dir]
  | .unlink dir _ _ => [dir]
  | .rmdir dir _ _ => [dir]
  | .rename oldDir _ newDir _ _ => [oldDir, newDir]

/-! ## The lower calls -/

/-- The lower directory that is locked for a change to `path`, as the lower call leaves it
in `low`. -/
def lockedDir (s : Ns σ ι) (path : LowerPath) (low : σ) : Option ι :=
  V.dInode low (V.dParent s.low path.dentry)

/-- The lower call of `wrapfs_unlink` in the lower directory `x`, and what counts as its
result. -/
def lowerUnlink (s : Ns σ ι) (path : LowerPath) (c : RemoveCalls) (x : ι) : Option Errno × σ :=
  let call := V.vfsUnlink s.low (some x) path.dentry c.vfs c.silly
  (if call.1 = some .EBUSY ∧ V.nfsRenamed call.2 path.dentry then none else call.1, call.2)

/-- The lower call of `wrapfs_rmdir`. -/
def lowerRmdir (s : Ns σ ι) (path : LowerPath) (c : RemoveCalls) : Option Errno × σ :=
  V.vfsRmdir s.low (lockedDir V s path s.low) path.dentry c.vfs

/-- The lower call of `wrapfs_rename`. -/
def lowerRename (s : Ns σ ι) (oldPath newPath : LowerPath) (c : RenameCalls) :
    Option Errno × σ :=
  V.vfsRename s.low (lockedDir V s oldPath s.low) oldPath.dentry (lockedDir V s newPath s.low)
    newPath.dentry c.vfs

/-! ## Which states are considered -/

/-- Before the operation, and with `low` the lower state after its lower call: the dentry
has a lower path, the parent a lower inode with which it is in step, and the lower parent
that is locked is not negative. -/
structure ParentReady (s : Ns σ ι) (low : σ) (dir d : ℕ) (path : LowerPath) (x : ι) : Prop where
  stored : s.stored d = some path
  own : s.hash.lowerOf dir = some x
  locked : ∃ z, lockedDir V s path low = some z
  inStep : SameDir (s.attr dir) (V.iAttr s.low x)

/-- A `create` has its `nd`.  The file linked to has an upper and a lower inode, and is not the
directory. -/
def MakeOp.FileReady (s : Ns σ ι) (low : σ) (dir : ℕ) (path : LowerPath) (x : ι) : MakeOp → Prop
  | .create nd => ∃ flags, nd = some flags
  | .link old => ∃ e u oldPath y, s.dentries old = some e ∧ e.inode = some u ∧
      s.stored old = some oldPath ∧ s.hash.lowerOf u = some y ∧ u ≠ dir ∧
      V.dInode low path.dentry ≠ some x
  | _ => True

/-- What the operation follows is there, and the parents are in step. -/
def DirOp.Ready (s : Ns σ ι) : DirOp → Prop
  | .make op dir d c => ∃ path x, ParentReady V s (lowerMake V s path c op).2 dir d path x ∧
      op.FileReady V s (lowerMake V s path c op).2 dir path x
  | .unlink dir d c => ∃ path x, ParentReady V s (lowerUnlink V s path c x).2 dir d path x ∧
      ∃ e u y, s.dentries d = some e ∧ e.inode = some u ∧ s.hash.lowerOf u = some y ∧ u ≠ dir
  | .rmdir dir d c => ∃ path x, ParentReady V s (lowerRmdir V s path c).2 dir d path x
  | .rename oldDir old newDir new c => ∃ oldPath newPath x y,
      ParentReady V s (lowerRename V s oldPath newPath c).2 oldDir old oldPath x ∧
      ParentReady V s (lowerRename V s oldPath newPath c).2 newDir new newPath y

/-! ## When the copies are right -/

/-- The lower call leaves the link count of the lower directory alone. -/
def NlinkKept (s : Ns σ ι) (low : σ) (x : ι) : Prop :=
  (V.iAttr low x).nlink = (V.iAttr s.low x).nlink

/-- The locked lower directory agrees with the lower directory `x`.  In a mount that nobody
reaches around it is `x`. -/
def LockedAgrees (R : Attr → Attr → Prop) (s : Ns σ ι) (path : LowerPath) (low : σ) (x : ι) :
    Prop :=
  ∀ z, lockedDir V s path low = some z → R (V.iAttr low z) (V.iAttr low x)

/-- The operation gets past everything that can fail. -/
structure MakeOp.Succeeds [DecidableEq ι] (s : Ns σ ι) (path : LowerPath) (c : NewCalls)
    (op : MakeOp) : Prop where
  wantWrite : c.wantWrite = none
  lower : (lowerMake V s path c op).1 = none
  /-- only `wrapfs_link` looks whether the lower dentry is negative -/
  positive : (∃ old, op = .link old) ∨ V.dInode (lowerMake V s path c op).2 path.dentry ≠ none
  interposable : Interposable V s.hash (lowerMake V s path c op).2 path.dentry c.iget

/-- What the copies of a successful operation need to be right, with `low` the lower state
after the lower call. -/
def MakeOp.Mirrors (s : Ns σ ι) (path : LowerPath) (low : σ) (x : ι) : MakeOp → Prop
  | .link _ =>
      match V.dInode low path.dentry with
      -- nothing is copied
      | none => SameDir (V.iAttr s.low x) (V.iAttr low x)
      | some y => SameSizeTimes (V.iAttr low y) (V.iAttr low x) ∧ NlinkKept V s low x
  | .mkdir => LockedAgrees V (fun a b => a.size = b.size) s path low x
  | _ => LockedAgrees V (fun a b => a.size = b.size) s path low x ∧ NlinkKept V s low x

/-- A rename gets past everything that can fail. -/
structure RenameSucceeds (s : Ns σ ι) (oldPath newPath : LowerPath) (c : RenameCalls) :
    Prop where
  trapOld : (if V.dParent s.low oldPath.dentry = V.dParent s.low newPath.dentry then none
    else V.trap s.low (V.dParent s.low oldPath.dentry) (V.dParent s.low newPath.dentry)) ≠
      some oldPath.dentry
  trapNew : (if V.dParent s.low oldPath.dentry = V.dParent s.low newPath.dentry then none
    else V.trap s.low (V.dParent s.low oldPath.dentry) (V.dParent s.low newPath.dentry)) ≠
      some newPath.dentry
  wantWriteOld : c.wantWriteOld = none
  wantWriteNew : c.wantWriteNew = none
  lower : (lowerRename V s oldPath newPath c).1 = none

/-- The condition, operation by operation. -/
def DirOp.Mirrors [DecidableEq ι] (s : Ns σ ι) : DirOp → Prop
  | .make op dir d c => ∀ path x, s.stored d = some path → s.hash.lowerOf dir = some x →
      op.Succeeds V s path c → op.Mirrors V s path (lowerMake V s path c op).2 x
  | .unlink dir d c => ∀ path x, s.stored d = some path → s.hash.lowerOf dir = some x →
      c.wantWrite = none → (lowerUnlink V s path c x).1 = none →
        NlinkKept V s (lowerUnlink V s path c x).2 x
  | .rmdir dir d c => ∀ path x, s.stored d = some path → s.hash.lowerOf dir = some x →
      c.wantWrite = none → (lowerRmdir V s path c).1 = none →
        LockedAgrees V SameDir s path (lowerRmdir V s path c).2 x
  | .rename oldDir old newDir new c => ∀ oldPath newPath x y, s.stored old = some oldPath →
      s.stored new = some newPath → s.hash.lowerOf oldDir = some x →
      s.hash.lowerOf newDir = some y → RenameSucceeds V s oldPath newPath c →
        LockedAgrees V SameDir s newPath (lowerRename V s oldPath newPath c).2 y ∧
          (newDir ≠ oldDir →
            LockedAgrees V SameDir s oldPath (lowerRename V s oldPath newPath c).2 x)

end Defs

/-! ## One copy after the other -/

section Copies

variable {V : LowerVfs σ ι} {s : Ns σ ι} {dir u : ℕ} {x : ι}

@[simp] theorem touch_attr_self (s : Ns σ ι) (u : ℕ) (f : Attr → Attr) :
    (s.touch u f).attr u = f (s.attr u) := Function.update_self _ _ _

/-- The other inodes keep their attributes. -/
theorem touch_attr_of_ne (s : Ns σ ι) (hne : dir ≠ u) (f : Attr → Attr) :
    (s.touch u f).attr dir = s.attr dir := Function.update_of_ne hne _ _

/-- In step, for a directory whose lower inode is known. -/
theorem inStep_iff (hown : s.hash.lowerOf dir = some x) :
    InStep V s dir ↔ SameDir (s.attr dir) (V.iAttr s.low x) := by
  refine ⟨fun h => h x hown, fun h y hy => ?_⟩
  rw [hown] at hy
  cases hy
  exact h

theorem inStep_touch_iff (hown : s.hash.lowerOf dir = some x) (f : Attr → Attr) :
    InStep V (s.touch dir f) dir ↔ SameDir (f (s.attr dir)) (V.iAttr s.low x) := by
  rw [← touch_attr_self s dir f]
  exact inStep_iff (s := s.touch dir f) hown

theorem inStep_touch_touch_iff (hown : s.hash.lowerOf dir = some x) (f g : Attr → Attr) :
    InStep V ((s.touch dir f).touch dir g) dir ↔
      SameDir (g (f (s.attr dir))) (V.iAttr s.low x) := by
  rw [← touch_attr_self s dir f]
  exact inStep_touch_iff (s := s.touch dir f) hown g

/-- Changing dentries. -/
theorem inStep_withCore {k : Core σ ι} (hlow : k.low = s.low) (hhash : k.hash = s.hash) :
    InStep V (s.withCore k) dir ↔ InStep V s dir := by
  simp only [InStep, Ns.withCore, hlow, hhash]

/-- Touching another inode. -/
theorem inStep_touch_of_ne (hne : dir ≠ u) (f : Attr → Attr) :
    InStep V (s.touch u f) dir ↔ InStep V s dir := by
  simp only [InStep, touch_attr_of_ne s hne, Ns.touch_toCore]

/-- Times from one inode and the size from another. -/
theorem sameDir_times_size_iff {a b c r : Attr} :
    SameDir (fsstackCopyInodeSize (fsstackCopyAttrTimes a b) c) r ↔
      c.size = r.size ∧ b.mtime = r.mtime ∧ b.ctime = r.ctime ∧ a.nlink = r.nlink := by
  refine ⟨fun h => ⟨h.size, h.mtime, h.ctime, h.nlink⟩, ?_⟩
  rintro ⟨hsize, hmtime, hctime, hnlink⟩
  exact ⟨⟨hsize, hmtime, hctime⟩, hnlink⟩

/-- Everything from one inode. -/
theorem sameDir_all_iff {a b r : Attr} :
    SameDir (fsstackCopyInodeSize (fsstackCopyAttrAll a b) b) r ↔ SameDir b r := by
  refine ⟨fun h => ⟨⟨h.size, h.mtime, h.ctime⟩, h.nlink⟩, fun h => ?_⟩
  exact ⟨⟨h.size, h.mtime, h.ctime⟩, h.nlink⟩

end Copies

section Success

variable {V : LowerVfs σ ι} {s : Ns σ ι} {P : Ns σ ι → Prop}

/-- What holds on success, under `mnt_want_write`. -/
theorem success_withWrite_iff {mnt : ℕ} {wantWrite : Option Errno}
    {body : NsOp σ ι (Option Errno)} :
    (Yields (withWrite mnt wantWrite body) s fun err s' => err = none → P s') ↔
      (wantWrite = none → Yields body s fun err s' => err = none → P s') := by
  rw [yields_withWrite]
  refine ⟨fun h => h.2, fun h => ⟨fun err _ herr => ?_, h⟩⟩
  cases herr

/-- What holds on success, after a call that may fail. -/
theorem success_match_iff {ret : Option Errno} {rest : NsOp σ ι (Option Errno)} :
    (Yields (match ret with
        | some err => pure (some err)
        | none => rest) s fun err s' => err = none → P s') ↔
      (ret = none → Yields rest s fun err s' => err = none → P s') := by
  cases ret with
  | none => exact ⟨fun h _ => h, fun h => h rfl⟩
  | some err =>
      refine iff_of_true ((yields_pure _).mpr fun h => ?_) fun h => ?_
      · cases h
      · cases h

variable [DecidableEq ι]

/-- What holds on success, after `wrapfs_interpose`. -/
theorem success_interpose_iff {d : ℕ} {path : LowerPath} {e : UpperDentry}
    (hd : s.dentries d = some e) (c : IgetCalls) {rest : NsOp σ ι (Option Errno)} {Q : Prop}
    (hrest : ∀ y u, V.dInode s.low path.dentry = some y →
      (wrapfsIget s.hash y c).inode = .ok u →
        ((Yields rest (s.interposed V d e y u c) fun err s' => err = none → P s') ↔ Q)) :
    (Yields (do
        let err ← wrapfsInterpose V d path c
        match err with
        | some err => pure (some err)
        | none => rest) s fun err s' => err = none → P s') ↔
      (V.dInode s.low path.dentry ≠ none → Interposable V s.hash s.low path.dentry c → Q) := by
  simp only [yields_bind, success_match_iff]
  cases hy : V.dInode s.low path.dentry with
  | none =>
      simp only [wrapfsInterpose, yields_bind, yields_look, yields_deref, hy]
      refine iff_of_true (fun y h => ?_) fun h => absurd rfl h
      cases h
  | some y =>
      rw [interposable_iff hy, yields_wrapfsInterpose_iff V hd hy]
      by_cases hsb : V.iSb y ≠ V.super
      · rw [if_pos hsb]
        refine iff_of_true (fun h => ?_) fun _ h => absurd h.1 hsb
        cases h
      · rw [if_neg hsb]
        cases hinode : (wrapfsIget s.hash y c).inode with
        | error err =>
            refine iff_of_true (fun h => ?_) ?_
            · cases h
            · rintro - ⟨-, u, hu⟩
              cases hu
        | ok u =>
            rw [← hrest y u hy hinode]
            refine ⟨fun h _ _ => h rfl, fun h _ => ?_⟩
            exact h (Option.some_ne_none y) ⟨not_not.mp hsb, u, rfl⟩

/-- An inode that has a lower inode keeps it when `wrapfs_iget` is called for another, and
is not the one that is made. -/
theorem interposed_frame (hfresh : ∀ u, s.hash.next ≤ u → s.hash.inodes u = none) {dir : ℕ}
    {x : ι} (hown : s.hash.lowerOf dir = some x) (d : ℕ) (e : UpperDentry) (y : ι) {u : ℕ}
    {c : IgetCalls} (hok : (wrapfsIget s.hash y c).inode = .ok u) :
    (s.interposed V d e y u c).hash.lowerOf dir = some x ∧
      (s.interposed V d e y u c).attr dir = s.attr dir := by
  have hne := InodeHash.ne_next_of_lowerOf hfresh hown
  rcases wrapfsIget_of_ok hok with ⟨-, hcall⟩ | ⟨rfl, hcall⟩
  · refine ⟨?_, ?_⟩
    · show (wrapfsIget s.hash y c).hash.lowerOf dir = some x
      rw [hcall]
      exact hown
    · simp [Ns.interposed, hcall, Ns.withCore]
  · refine ⟨?_, ?_⟩
    · show (wrapfsIget s.hash y c).hash.lowerOf dir = some x
      rw [hcall, ← hown]
      exact s.hash.lowerOf_set_of_ne hne _
    · simp [Ns.interposed, hcall, Ns.withCore, touch_attr_of_ne _ hne]

end Success

/-! ## The operations -/

section Operations

variable [DecidableEq ι] {V : LowerVfs σ ι} {s : Ns σ ι} {dir d : ℕ} {path : LowerPath} {x : ι}

/-- The four operations that make a file; `Q` is what `finish` makes of the attributes that
the directory has after the copies. -/
theorem inStep_newUnderWrite_iff (hfresh : ∀ u, s.hash.next ≤ u → s.hash.inodes u = none)
    {e : UpperDentry} (hd : s.dentries d = some e) (hown : s.hash.lowerOf dir = some x)
    {kind : NewKind} {c : NewCalls} {z : ι}
    (hz : lockedDir V s path (lowerNew V s path c kind).2 = some z)
    {finish : NsOp σ ι Unit} {Q : Attr → Prop}
    (hfinish : ∀ s', s'.hash.lowerOf dir = some x → s'.low = (lowerNew V s path c kind).2 →
      ((Yields finish s' fun _ s'' => InStep V s'' dir) ↔ Q (s'.attr dir))) :
    (Yields (newUnderWrite V kind finish dir d path (V.dParent s.low path.dentry) c) s
        fun err s' => err = none → InStep V s' dir) ↔
      ((lowerNew V s path c kind).1 = none →
        V.dInode (lowerNew V s path c kind).2 path.dentry ≠ none →
        Interposable V s.hash (lowerNew V s path c kind).2 path.dentry c.iget →
          Q (fsstackCopyInodeSize
            (fsstackCopyAttrTimes (s.attr dir) (V.iAttr (lowerNew V s path c kind).2 x))
            (V.iAttr (lowerNew V s path c kind).2 z))) := by
  rw [newUnderWrite, yields_bind, yields_look, yields_bind, yields_changeCore]
  simp only [lowerNew] at hz hfinish ⊢
  generalize V.vfsNew kind s.low (V.dInode s.low (V.dParent s.low path.dentry)) path.dentry c.vfs =
    call at hz hfinish ⊢
  obtain ⟨ret, low⟩ := call
  refine success_match_iff.trans (imp_congr_right fun _ =>
    success_interpose_iff (s := s.withCore (s.setLow low)) hd c.iget fun y u _ hok => ?_)
  obtain ⟨hown', hattr⟩ := interposed_frame (V := V) (s := s.withCore (s.setLow low)) hfresh
    hown d e y hok
  simp only [yields_bind, yields_copyFromOwn, hown', Option.some.injEq, forall_eq', yields_look,
    yields_copyFrom, yields_pure, forall_const]
  have hz' : V.dInode ((s.withCore (s.setLow low)).interposed V d e y u c.iget).low
      (V.dParent s.low path.dentry) = some z := hz
  simp only [Ns.touch_toCore, hz', Option.some.injEq, forall_eq']
  refine Iff.trans (hfinish _ ?_ ?_) ?_
  · exact hown'
  · rfl
  · rw [touch_attr_self, touch_attr_self, hattr]
    rfl

omit [DecidableEq ι] in
/-- Getting the lower path, the lock and write access copies nothing. -/
theorem inStep_underLockedParent_iff (hpath : s.stored d = some path) {wantWrite : Option Errno}
    {body : LowerPath → ℕ → NsOp σ ι (Option Errno)} {Q : Prop}
    (hbody : (Yields (body path (V.dParent s.low path.dentry)) s
      fun err s' => err = none → InStep V s' dir) ↔ Q) :
    (Yields (underLockedParent V d wantWrite body) s fun err s' => err = none → InStep V s' dir) ↔
      (wantWrite = none → Q) := by
  simp only [underLockedParent, yields_bind, yields_wrapfsGetLowerPath, hpath,
    Option.some.injEq, forall_eq', yields_lockParent, yields_unlockDir,
    yields_wrapfsPutLowerPath, yields_pure]
  rw [success_withWrite_iff]
  exact imp_congr Iff.rfl hbody

/-- `wrapfs_symlink`, `wrapfs_mkdir` and `wrapfs_mknod`. -/
theorem inStep_wrapfsNew_iff (hfresh : ∀ u, s.hash.next ≤ u → s.hash.inodes u = none)
    {kind : NewKind} {c : NewCalls}
    (hready : ParentReady V s (lowerNew V s path c kind).2 dir d path x) {z : ι}
    (hz : lockedDir V s path (lowerNew V s path c kind).2 = some z)
    {finish : NsOp σ ι Unit} {Q : Attr → Prop}
    (hfinish : ∀ s', s'.hash.lowerOf dir = some x → s'.low = (lowerNew V s path c kind).2 →
      ((Yields finish s' fun _ s'' => InStep V s'' dir) ↔ Q (s'.attr dir))) :
    (Yields (wrapfsNew V kind finish dir d c) s fun err s' => err = none → InStep V s' dir) ↔
      (c.wantWrite = none → (lowerNew V s path c kind).1 = none →
        V.dInode (lowerNew V s path c kind).2 path.dentry ≠ none →
        Interposable V s.hash (lowerNew V s path c kind).2 path.dentry c.iget →
          Q (fsstackCopyInodeSize
            (fsstackCopyAttrTimes (s.attr dir) (V.iAttr (lowerNew V s path c kind).2 x))
            (V.iAttr (lowerNew V s path c kind).2 z))) := by
  obtain ⟨e, hd, -⟩ := Core.stored_eq_some.mp hready.stored
  exact inStep_underLockedParent_iff hready.stored
    (inStep_newUnderWrite_iff hfresh hd hready.own hz hfinish)

/-- With its `nd`, a creation is in step when the other operations would be. -/
theorem inStep_wrapfsCreate_iff (hpath : s.stored d = some path) (flags : LookupFlags)
    (c : NewCalls) :
    (Yields (wrapfsCreate V dir d (some flags) c) s fun err s' => err = none → InStep V s' dir) ↔
      Yields (wrapfsNew V .create (pure ()) dir d c) s fun err s' =>
        err = none → InStep V s' dir := by
  rw [wrapfsCreate, wrapfsNew, inStep_underLockedParent_iff hpath Iff.rfl,
    inStep_underLockedParent_iff hpath Iff.rfl]
  simp only [yields_bind, yields_deref, Option.some.injEq, forall_eq']

omit [DecidableEq ι] in
/-- The locked directory is known. -/
theorem lockedAgrees_iff {low : σ} {z : ι} (hz : lockedDir V s path low = some z)
    {R : Attr → Attr → Prop} :
    LockedAgrees V R s path low x ↔ R (V.iAttr low z) (V.iAttr low x) := by
  simp [LockedAgrees, hz]

/-- An operation other than `wrapfs_link` succeeds when it makes its lower file and
interposes on it. -/
theorem succeeds_imp_iff {op : MakeOp} (hop : ∀ old, op ≠ .link old) {c : NewCalls} {Q : Prop} :
    (op.Succeeds V s path c → Q) ↔
      (c.wantWrite = none → (lowerMake V s path c op).1 = none →
        V.dInode (lowerMake V s path c op).2 path.dentry ≠ none →
        Interposable V s.hash (lowerMake V s path c op).2 path.dentry c.iget → Q) := by
  refine ⟨fun h hwrite hlower hpos hinter => h ⟨hwrite, hlower, Or.inr hpos, hinter⟩, ?_⟩
  intro h hsuc
  refine h hsuc.wantWrite hsuc.lower ?_ hsuc.interposable
  exact hsuc.positive.resolve_left fun ⟨old, hold⟩ => hop old hold

/-- `wrapfs_create`, `wrapfs_symlink` and `wrapfs_mknod`: the times are those of the own
lower directory, the size is that of the locked one, and the link count is the old one. -/
theorem inStep_new_iff (hfresh : ∀ u, s.hash.next ≤ u → s.hash.inodes u = none)
    {kind : NewKind} {c : NewCalls}
    (hready : ParentReady V s (lowerNew V s path c kind).2 dir d path x) :
    (Yields (wrapfsNew V kind (pure ()) dir d c) s fun err s' => err = none → InStep V s' dir) ↔
      (c.wantWrite = none → (lowerNew V s path c kind).1 = none →
        V.dInode (lowerNew V s path c kind).2 path.dentry ≠ none →
        Interposable V s.hash (lowerNew V s path c kind).2 path.dentry c.iget →
          LockedAgrees V (fun a b => a.size = b.size) s path (lowerNew V s path c kind).2 x ∧
            NlinkKept V s (lowerNew V s path c kind).2 x) := by
  obtain ⟨z, hz⟩ := hready.locked
  rw [inStep_wrapfsNew_iff (Q := fun a => SameDir a (V.iAttr (lowerNew V s path c kind).2 x))
    hfresh hready hz]
  · rw [sameDir_times_size_iff, lockedAgrees_iff hz, hready.inStep.nlink, NlinkKept,
      eq_comm (a := (V.iAttr s.low x).nlink)]
    simp only [true_and]
  · intro s' hown hlow
    rw [yields_pure, inStep_iff hown, hlow]

/-- `wrapfs_mkdir` copies the link count too. -/
theorem inStep_mkdir_iff (hfresh : ∀ u, s.hash.next ≤ u → s.hash.inodes u = none)
    {c : NewCalls} (hready : ParentReady V s (lowerNew V s path c .mkdir).2 dir d path x) :
    (Yields (wrapfsMkdir V dir d c) s fun err s' => err = none → InStep V s' dir) ↔
      (c.wantWrite = none → (lowerNew V s path c .mkdir).1 = none →
        V.dInode (lowerNew V s path c .mkdir).2 path.dentry ≠ none →
        Interposable V s.hash (lowerNew V s path c .mkdir).2 path.dentry c.iget →
          LockedAgrees V (fun a b => a.size = b.size) s path
            (lowerNew V s path c .mkdir).2 x) := by
  obtain ⟨z, hz⟩ := hready.locked
  rw [wrapfsMkdir, inStep_wrapfsNew_iff hfresh hready hz (Q := fun a =>
    SameDir (copyNlink a (V.iAttr (lowerNew V s path c .mkdir).2 x))
      (V.iAttr (lowerNew V s path c .mkdir).2 x))]
  · rw [lockedAgrees_iff hz]
    refine imp_congr_right fun _ => imp_congr_right fun _ => imp_congr_right fun _ =>
      imp_congr_right fun _ => ⟨fun h => h.size, fun h => ⟨⟨h, rfl, rfl⟩, rfl⟩⟩
  · intro s' hown hlow
    rw [yields_copyFromOwn]
    simp only [hown, Option.some.injEq, forall_eq']
    rw [inStep_touch_iff hown, hlow]

omit [DecidableEq ι] in
/-- The copies of `wrapfs_link`.  What it does to the inodes of the file does not show in
the directory. -/
theorem inStep_linkCopies_iff (hown : s.hash.lowerOf dir = some x) {uOld u : ℕ} {yOld : ι}
    (hold : s.hash.lowerOf uOld = some yOld) (hneOld : dir ≠ uOld) {e : UpperDentry}
    (hd : s.dentries d = some e) (hu : e.inode = some u) (hne : dir ≠ u) (y : ι)
    (fileSizeSave : ℕ) :
    (Yields (do
        copyFrom V fsstackCopyAttrTimes dir (some y)
        copyFrom V fsstackCopyInodeSize dir (some y)
        copyFromOwn V copyNlink uOld
        let e ← dentryAt d
        let u ← deref e.inode
        touchInode u fun a => { a with size := fileSizeSave }
        pure (none : Option Errno)) s fun err s' => err = none → InStep V s' dir) ↔
      SameSizeTimes (V.iAttr s.low y) (V.iAttr s.low x) ∧
        (s.attr dir).nlink = (V.iAttr s.low x).nlink := by
  simp only [yields_bind, yields_copyFrom, Option.some.injEq, forall_eq', yields_copyFromOwn,
    Ns.touch_toCore, hold, yields_dentryAt, hd, yields_deref, hu, yields_touchInode, yields_pure,
    forall_const]
  rw [inStep_touch_of_ne hne, inStep_touch_of_ne hneOld, inStep_touch_touch_iff hown]
  refine sameDir_times_size_iff.trans ⟨?_, ?_⟩
  · rintro ⟨hsize, hmtime, hctime, hnlink⟩
    exact ⟨⟨hsize, hmtime, hctime⟩, hnlink⟩
  · rintro ⟨hsame, hnlink⟩
    exact ⟨hsame.size, hsame.mtime, hsame.ctime, hnlink⟩

/-- `wrapfs_link`: times and size are those of the new file, and the link count is the old
one.  If the lower dentry has stayed negative nothing is copied. -/
theorem inStep_linkUnderWrite_iff (hfresh : ∀ u, s.hash.next ≤ u → s.hash.inodes u = none)
    {oldPath : LowerPath} {c : NewCalls}
    (hready : ParentReady V s (lowerLink V s path c oldPath).2 dir d path x) {uOld : ℕ} {yOld : ι}
    (hold : s.hash.lowerOf uOld = some yOld) (hne : uOld ≠ dir)
    (hfile : V.dInode (lowerLink V s path c oldPath).2 path.dentry ≠ some x)
    (old fileSizeSave : ℕ) :
    (Yields (linkUnderWrite V uOld dir d oldPath path (V.dParent s.low path.dentry) fileSizeSave c)
        s fun err s' => err = none → InStep V s' dir) ↔
      ((lowerLink V s path c oldPath).1 = none →
        Interposable V s.hash (lowerLink V s path c oldPath).2 path.dentry c.iget →
          MakeOp.Mirrors V s path (lowerLink V s path c oldPath).2 x (.link old)) := by
  obtain ⟨e, hd, -⟩ := Core.stored_eq_some.mp hready.stored
  have hown := hready.own
  have hstep := hready.inStep
  clear hready
  rw [linkUnderWrite, yields_bind, yields_look, yields_bind, yields_changeCore, MakeOp.Mirrors]
  simp only [lowerLink] at hfile ⊢
  generalize V.vfsLink s.low oldPath.dentry (V.dInode s.low (V.dParent s.low path.dentry))
    path.dentry c.vfs = call at hfile ⊢
  obtain ⟨ret, low⟩ := call
  refine success_match_iff.trans (imp_congr_right fun _ => ?_)
  cases hy : V.dInode low path.dentry with
  | none =>
      simp only [Option.isNone_none, if_true, yields_pure, forall_const]
      rw [inStep_iff (s := s.withCore (s.setLow low)) hown]
      refine ⟨fun h _ => hstep.symm.trans h, fun h => hstep.trans (h fun y hy' => ?_)⟩
      rw [hy] at hy'
      cases hy'
  | some y =>
      simp only [hy] at hfile
      simp only [Option.isNone_some, Bool.false_eq_true, if_false]
      refine (success_interpose_iff (s := s.withCore (s.setLow low)) hd c.iget
        fun y' u hy' hok => ?_).trans (forall_prop_of_true ?_)
      · obtain rfl : y = y' := Option.some.inj (hy.symm.trans hy')
        obtain ⟨hown', hattr⟩ := interposed_frame (V := V) (s := s.withCore (s.setLow low))
          hfresh hown d e y hok
        have hold' := (interposed_frame (V := V) (s := s.withCore (s.setLow low))
          hfresh hold d e y hok).1
        have hu := lowerOf_of_wrapfsIget_ok hok
        have hneu : dir ≠ u := by
          rintro rfl
          exact hfile (hu.symm.trans hown')
        rw [inStep_linkCopies_iff hown' hold' hne.symm (Core.setDentry_self _ _ _) rfl hneu,
          hattr, NlinkKept, ← hstep.nlink, eq_comm (b := (s.attr dir).nlink)]
        rfl
      · show V.dInode low path.dentry ≠ none
        rw [hy]
        exact Option.some_ne_none y

/-- `wrapfs_link`. -/
theorem inStep_wrapfsLink_iff (hfresh : ∀ u, s.hash.next ≤ u → s.hash.inodes u = none)
    {oldPath : LowerPath} {c : NewCalls}
    (hready : ParentReady V s (lowerLink V s path c oldPath).2 dir d path x) {old uOld : ℕ}
    {eOld : UpperDentry} {yOld : ι} (hdOld : s.dentries old = some eOld)
    (huOld : eOld.inode = some uOld) (hpathOld : s.stored old = some oldPath)
    (hold : s.hash.lowerOf uOld = some yOld) (hne : uOld ≠ dir)
    (hfile : V.dInode (lowerLink V s path c oldPath).2 path.dentry ≠ some x) :
    (Yields (wrapfsLink V old dir d c) s fun err s' => err = none → InStep V s' dir) ↔
      (c.wantWrite = none → (lowerLink V s path c oldPath).1 = none →
        Interposable V s.hash (lowerLink V s path c oldPath).2 path.dentry c.iget →
          MakeOp.Mirrors V s path (lowerLink V s path c oldPath).2 x (.link old)) := by
  simp only [wrapfsLink, yields_bind, yields_dentryAt, hdOld, Option.some.injEq, forall_eq',
    yields_deref, huOld, yields_look, yields_wrapfsGetLowerPath, hpathOld, hready.stored,
    yields_lockParent, yields_unlockDir, yields_wrapfsPutLowerPath, yields_pure]
  rw [success_withWrite_iff]
  exact imp_congr_right fun _ => inStep_linkUnderWrite_iff hfresh hready hold hne hfile old _

omit [DecidableEq ι] in
/-- The copies of `wrapfs_unlink`. -/
theorem inStep_unlinkDeleted_iff (hown : s.hash.lowerOf dir = some x) {e : UpperDentry} {u : ℕ}
    {y : ι} (hd : s.dentries d = some e) (hu : e.inode = some u) (hy : s.hash.lowerOf u = some y)
    (hne : dir ≠ u) :
    (Yields (unlinkDeleted V dir d (some x)) s fun _ s' => InStep V s' dir) ↔
      (s.attr dir).nlink = (V.iAttr s.low x).nlink := by
  simp only [unlinkDeleted, yields_bind, yields_copyFrom, Option.some.injEq, forall_eq',
    yields_dentryAt, Ns.touch_toCore, hd, yields_deref, hu, yields_copyFromOwn, hy, yields_look,
    yields_touchInode, dDrop, yields_changeCore]
  rw [inStep_withCore (by rfl) (by rfl), inStep_touch_of_ne hne, inStep_touch_of_ne hne,
    inStep_touch_touch_iff hown]
  exact sameDir_times_size_iff.trans ⟨fun h => h.2.2.2, fun h => ⟨rfl, rfl, rfl, h⟩⟩

omit [DecidableEq ι] in
/-- `wrapfs_unlink`: times and size are those of the own lower directory, and the link count
is the old one. -/
theorem inStep_wrapfsUnlink_iff {c : RemoveCalls}
    (hready : ParentReady V s (lowerUnlink V s path c x).2 dir d path x) {e : UpperDentry} {u : ℕ}
    {y : ι} (hd : s.dentries d = some e) (hu : e.inode = some u) (hy : s.hash.lowerOf u = some y)
    (hne : u ≠ dir) :
    (Yields (wrapfsUnlink V dir d c) s fun err s' => err = none → InStep V s' dir) ↔
      (c.wantWrite = none → (lowerUnlink V s path c x).1 = none →
        NlinkKept V s (lowerUnlink V s path c x).2 x) := by
  obtain ⟨inode, hinode, hlower⟩ := Option.bind_eq_some_iff.mp hready.own
  simp only [wrapfsUnlink, yields_bind, yields_wrapfsLowerInode, hinode, Option.some.injEq,
    forall_eq', hlower, yields_wrapfsGetLowerPath, hready.stored, yields_acquire,
    yields_lockParent, yields_unlockDir, yields_release, yields_wrapfsPutLowerPath, yields_pure]
  rw [success_withWrite_iff, unlinkUnderWrite, yields_bind, yields_look, yields_bind,
    yields_changeCore]
  refine imp_congr_right fun _ => success_match_iff.trans (imp_congr_right fun _ => ?_)
  have hown := hready.own
  simp only [lowerUnlink]
  generalize (V.vfsUnlink s.low (some x) path.dentry c.vfs c.silly).2 = low
  simp only [yields_bind, yields_pure, forall_const]
  rw [inStep_unlinkDeleted_iff (s := s.withCore (s.setLow low)) hown hd hu hy hne.symm, NlinkKept,
    ← hready.inStep.nlink, eq_comm (b := (s.attr dir).nlink)]
  rfl

omit [DecidableEq ι] in
/-- The copies of `wrapfs_rmdir`, from the lower directory `z`. -/
theorem inStep_rmdirCopies_iff (hown : s.hash.lowerOf dir = some x) (z : ι) :
    (Yields (do
        copyFrom V fsstackCopyAttrTimes dir (some z)
        copyFrom V fsstackCopyInodeSize dir (some z)
        copyFrom V copyNlink dir (some z)
        pure (none : Option Errno)) s fun err s' => err = none → InStep V s' dir) ↔
      SameDir (V.iAttr s.low z) (V.iAttr s.low x) := by
  simp only [yields_bind, yields_copyFrom, Option.some.injEq, forall_eq', Ns.touch_toCore,
    yields_pure, forall_const]
  refine (inStep_touch_touch_iff (s := Ns.touch s dir _) hown _ _).trans ?_
  rw [touch_attr_self]
  refine ⟨fun h => ⟨⟨h.size, h.mtime, h.ctime⟩, h.nlink⟩, fun h => ?_⟩
  exact ⟨⟨h.size, h.mtime, h.ctime⟩, h.nlink⟩

omit [DecidableEq ι] in
/-- `wrapfs_rmdir`: everything is from the locked lower directory. -/
theorem inStep_wrapfsRmdir_iff {c : RemoveCalls}
    (hready : ParentReady V s (lowerRmdir V s path c).2 dir d path x) :
    (Yields (wrapfsRmdir V dir d c) s fun err s' => err = none → InStep V s' dir) ↔
      (c.wantWrite = none → (lowerRmdir V s path c).1 = none →
        LockedAgrees V SameDir s path (lowerRmdir V s path c).2 x) := by
  obtain ⟨e, hd, -⟩ := Core.stored_eq_some.mp hready.stored
  obtain ⟨z, hz⟩ := hready.locked
  have hown := hready.own
  simp only [wrapfsRmdir, yields_bind, yields_wrapfsGetLowerPath, hready.stored,
    Option.some.injEq, forall_eq', yields_lockParent, yields_unlockDir,
    yields_wrapfsPutLowerPath, yields_pure]
  rw [success_withWrite_iff, lockedAgrees_iff hz, rmdirUnderWrite, yields_bind, yields_look,
    yields_bind, yields_changeCore]
  refine imp_congr_right fun _ => ?_
  clear hready
  simp only [lowerRmdir, lockedDir] at hz ⊢
  generalize V.vfsRmdir s.low (V.dInode s.low (V.dParent s.low path.dentry)) path.dentry c.vfs =
    call at hz ⊢
  obtain ⟨ret, low⟩ := call
  refine success_match_iff.trans (imp_congr_right fun _ => ?_)
  rw [hz, yields_bind]
  simp only [dDrop, yields_bind (dentryAt d), yields_dentryAt, Ns.withCore_toCore,
    Core.setLow_dentries, hd, Option.some.injEq, forall_eq', yields_changeCore,
    Core.setDentry_self]
  rw [yields_bind]
  -- the removed directory may lose its links: the copies come later
  cases e.inode with
  | none =>
      rw [yields_pure]
      refine inStep_rmdirCopies_iff ?_ z
      exact hown
  | some u =>
      rw [yields_touchInode]
      refine inStep_rmdirCopies_iff ?_ z
      exact hown

omit [DecidableEq ι] in
/-- The copies of `wrapfs_rename`. -/
theorem inStep_copyRenameAttrs_iff {oldDir newDir : ℕ} {y : ι}
    (hownOld : s.hash.lowerOf oldDir = some x) (hownNew : s.hash.lowerOf newDir = some y)
    (zOld zNew : ι) :
    (Yields (copyRenameAttrs V oldDir newDir (some zOld) (some zNew)) s fun _ s' =>
        InStep V s' oldDir ∧ InStep V s' newDir) ↔
      SameDir (V.iAttr s.low zNew) (V.iAttr s.low y) ∧
        (newDir ≠ oldDir → SameDir (V.iAttr s.low zOld) (V.iAttr s.low x)) := by
  simp only [copyRenameAttrs, copyDirAttrs, yields_bind, yields_copyFrom, Option.some.injEq,
    forall_eq', Ns.touch_toCore, yields_ite]
  by_cases hne : newDir ≠ oldDir
  · rw [if_pos hne, inStep_touch_of_ne hne, inStep_touch_of_ne hne,
      inStep_touch_touch_iff hownNew, sameDir_all_iff, forall_prop_of_true hne, and_comm]
    refine and_congr_right fun _ => ?_
    refine (inStep_touch_touch_iff (s := (Ns.touch s newDir _).touch newDir _) hownOld _ _).trans ?_
    rw [sameDir_all_iff]
    rfl
  · obtain rfl := not_not.mp hne
    rw [if_neg hne, yields_pure, and_self, inStep_touch_touch_iff hownNew, sameDir_all_iff,
      and_iff_left fun h => absurd h hne]

omit [DecidableEq ι] in
/-- What holds on success of `wrapfs_rename`, once the lower directories are locked. -/
theorem success_renameLocked_iff {oldDir newDir lowerOldDir lowerNewDir : ℕ}
    {oldPath newPath : LowerPath} {trap : Option ℕ} {c : RenameCalls} {P : Ns σ ι → Prop} :
    (Yields (renameLocked V oldDir newDir oldPath newPath lowerOldDir lowerNewDir trap c) s
        fun err s' => err = none → P s') ↔
      (trap ≠ some oldPath.dentry → trap ≠ some newPath.dentry → c.wantWriteOld = none →
        c.wantWriteNew = none →
          Yields (renameUnderWrite V oldDir newDir oldPath newPath lowerOldDir lowerNewDir c) s
            fun err s' => err = none → P s') := by
  rw [renameLocked, yields_ite]
  by_cases hold : trap = some oldPath.dentry
  · rw [if_pos hold, yields_pure]
    refine iff_of_true (fun h => ?_) fun h => absurd hold h
    cases h
  · rw [if_neg hold, yields_ite]
    by_cases hnew : trap = some newPath.dentry
    · rw [if_pos hnew, yields_pure]
      refine iff_of_true (fun h => ?_) fun _ h => absurd hnew h
      cases h
    · rw [if_neg hnew, success_withWrite_iff, success_withWrite_iff]
      exact ⟨fun h _ _ => h, fun h => h hold hnew⟩

omit [DecidableEq ι] in
/-- The part of `wrapfs_rename` under the locks, by whether the two directories are one. -/
theorem inStep_renameUnderWrite_iff {oldDir newDir : ℕ} {oldPath newPath : LowerPath} {y : ι}
    {c : RenameCalls} (hownOld : s.hash.lowerOf oldDir = some x)
    (hownNew : s.hash.lowerOf newDir = some y) {zOld zNew : ι}
    (hzOld : lockedDir V s oldPath (lowerRename V s oldPath newPath c).2 = some zOld)
    (hzNew : lockedDir V s newPath (lowerRename V s oldPath newPath c).2 = some zNew) :
    (Yields (renameUnderWrite V oldDir newDir oldPath newPath (V.dParent s.low oldPath.dentry)
        (V.dParent s.low newPath.dentry) c) s fun err s' => err = none →
          InStep V s' oldDir ∧ InStep V s' newDir) ↔
      ((lowerRename V s oldPath newPath c).1 = none →
        SameDir (V.iAttr (lowerRename V s oldPath newPath c).2 zNew)
            (V.iAttr (lowerRename V s oldPath newPath c).2 y) ∧
          (newDir ≠ oldDir → SameDir (V.iAttr (lowerRename V s oldPath newPath c).2 zOld)
            (V.iAttr (lowerRename V s oldPath newPath c).2 x))) := by
  rw [renameUnderWrite, yields_bind, yields_look, yields_bind, yields_changeCore]
  simp only [lowerRename, lockedDir] at hzOld hzNew ⊢
  generalize V.vfsRename s.low (V.dInode s.low (V.dParent s.low oldPath.dentry)) oldPath.dentry
    (V.dInode s.low (V.dParent s.low newPath.dentry)) newPath.dentry c.vfs = call at hzOld hzNew ⊢
  obtain ⟨ret, low⟩ := call
  refine success_match_iff.trans (imp_congr_right fun _ => ?_)
  simp only [hzOld, hzNew, yields_bind, yields_pure, forall_const]
  refine inStep_copyRenameAttrs_iff ?_ ?_ zOld zNew
  · exact hownOld
  · exact hownNew

omit [DecidableEq ι] in
/-- `wrapfs_rename`: everything is from the locked lower directories. -/
theorem inStep_wrapfsRename_iff {oldDir newDir old new : ℕ} {oldPath newPath : LowerPath} {y : ι}
    {c : RenameCalls}
    (hOld : ParentReady V s (lowerRename V s oldPath newPath c).2 oldDir old oldPath x)
    (hNew : ParentReady V s (lowerRename V s oldPath newPath c).2 newDir new newPath y) :
    (Yields (wrapfsRename V oldDir old newDir new c) s fun err s' => err = none →
        InStep V s' oldDir ∧ InStep V s' newDir) ↔
      (RenameSucceeds V s oldPath newPath c →
        LockedAgrees V SameDir s newPath (lowerRename V s oldPath newPath c).2 y ∧
          (newDir ≠ oldDir →
            LockedAgrees V SameDir s oldPath (lowerRename V s oldPath newPath c).2 x)) := by
  obtain ⟨zOld, hzOld⟩ := hOld.locked
  obtain ⟨zNew, hzNew⟩ := hNew.locked
  simp only [wrapfsRename, yields_bind, yields_wrapfsGetLowerPath, hOld.stored, hNew.stored,
    Option.some.injEq, forall_eq', yields_look, yields_acquire, yields_lockRename,
    yields_unlockRename, yields_release, yields_wrapfsPutLowerPath, yields_pure]
  rw [lockedAgrees_iff hzOld, lockedAgrees_iff hzNew, success_renameLocked_iff]
  have hunder := inStep_renameUnderWrite_iff hOld.own hNew.own hzOld hzNew
  refine ⟨fun h hsuc => ?_, fun h htrapOld htrapNew hwriteOld hwriteNew => ?_⟩
  · exact hunder.mp (h hsuc.trapOld hsuc.trapNew hsuc.wantWriteOld hsuc.wantWriteNew) hsuc.lower
  · exact hunder.mpr fun hlower => h ⟨htrapOld, htrapNew, hwriteOld, hwriteNew, hlower⟩

/-- The five operations that make an entry. -/
theorem inStep_runMake_iff (hfresh : ∀ u, s.hash.next ≤ u → s.hash.inodes u = none)
    {op : MakeOp} {c : NewCalls}
    (hready : ParentReady V s (lowerMake V s path c op).2 dir d path x)
    (hfile : op.FileReady V s (lowerMake V s path c op).2 dir path x) :
    (Yields (runMake V dir d c op) s fun err s' => err = none → InStep V s' dir) ↔
      (op.Succeeds V s path c → op.Mirrors V s path (lowerMake V s path c op).2 x) := by
  cases op with
  | create nd =>
      obtain ⟨flags, rfl⟩ := hfile
      rw [succeeds_imp_iff fun _ h => by cases h]
      exact (inStep_wrapfsCreate_iff hready.stored flags c).trans (inStep_new_iff hfresh hready)
  | symlink =>
      rw [succeeds_imp_iff fun _ h => by cases h]
      exact inStep_new_iff hfresh hready
  | mknod =>
      rw [succeeds_imp_iff fun _ h => by cases h]
      exact inStep_new_iff hfresh hready
  | mkdir =>
      rw [succeeds_imp_iff fun _ h => by cases h]
      exact inStep_mkdir_iff hfresh hready
  | link old =>
      obtain ⟨eOld, uOld, oldPath, yOld, hdOld, huOld, hpathOld, hold, hne, hnot⟩ := hfile
      have hcall : lowerMake V s path c (.link old) = lowerLink V s path c oldPath := by
        simp only [lowerMake, hpathOld]
      have hsuc : MakeOp.Succeeds V s path c (.link old) ↔ c.wantWrite = none ∧
          (lowerLink V s path c oldPath).1 = none ∧
          Interposable V s.hash (lowerLink V s path c oldPath).2 path.dentry c.iget := by
        rw [← hcall]
        refine ⟨fun h => ⟨h.wantWrite, h.lower, h.interposable⟩, fun h => ?_⟩
        exact ⟨h.1, h.2.1, Or.inl ⟨old, rfl⟩, h.2.2⟩
      rw [hcall] at hready hnot
      rw [hsuc, hcall, and_imp, and_imp]
      exact inStep_wrapfsLink_iff hfresh hready hdOld huOld hpathOld hold hne hnot

/-- **When the parent directories stay in step.**  For any lower file system, and any state
in which the parents are in step with their lower directories: whenever the operation returns
0 its parents are in step again, if and only if, should the operation succeed,

* a `create`, `symlink`, `mknod`, `link` or `unlink` leaves the link count of the lower
  directory alone;
* the lower directory that is locked agrees in what is copied from it with the directory's
  own lower directory; and
* a `link` is of a file with the size and times of the directory, or leaves the lower dentry
  negative and the lower directory as it was. -/
theorem parents_inStep_iff (hfresh : ∀ u, s.hash.next ≤ u → s.hash.inodes u = none) {op : DirOp}
    (hop : op.Ready V s) :
    (Yields (runDirOp V op) s fun err s' => err = none → ∀ dir ∈ op.parents, InStep V s' dir) ↔
      op.Mirrors V s := by
  cases op with
  | make op dir d c =>
      obtain ⟨path, x, hready, hfile⟩ := hop
      simp only [runDirOp, DirOp.parents, List.mem_singleton, forall_eq, DirOp.Mirrors,
        hready.stored, hready.own, Option.some.injEq, forall_eq', forall_apply_eq_imp_iff]
      exact inStep_runMake_iff hfresh hready hfile
  | unlink dir d c =>
      obtain ⟨path, x, hready, e, u, y, hd, hu, hy, hne⟩ := hop
      simp only [runDirOp, DirOp.parents, List.mem_singleton, forall_eq, DirOp.Mirrors,
        hready.stored, hready.own, Option.some.injEq, forall_eq', forall_apply_eq_imp_iff]
      exact inStep_wrapfsUnlink_iff hready hd hu hy hne
  | rmdir dir d c =>
      obtain ⟨path, x, hready⟩ := hop
      simp only [runDirOp, DirOp.parents, List.mem_singleton, forall_eq, DirOp.Mirrors,
        hready.stored, hready.own, Option.some.injEq, forall_eq', forall_apply_eq_imp_iff]
      exact inStep_wrapfsRmdir_iff hready
  | rename oldDir old newDir new c =>
      obtain ⟨oldPath, newPath, x, y, hOld, hNew⟩ := hop
      simp only [runDirOp, DirOp.parents, List.mem_cons, List.not_mem_nil, or_false,
        forall_eq_or_imp, forall_eq, DirOp.Mirrors, hOld.stored, hOld.own, hNew.stored, hNew.own,
        Option.some.injEq]
      refine (inStep_wrapfsRename_iff hOld hNew).trans ⟨?_, fun h => h _ _ _ _ rfl rfl rfl rfl⟩
      rintro h _ _ _ _ rfl rfl rfl rfl
      exact h

end Operations

/-! ## On a tree -/

/-- `parents_inStep_iff` for a `create` in an empty directory. -/
theorem parents_inStep_iff_create :
    Yields (wrapfsCreate (treeVfs 0) 0 1 (some createFlags) ⟨none, none, ⟨true, true⟩⟩) readyNs
      fun err s' => err = none → ∀ dir ∈ [0], InStep (treeVfs 0) s' dir := by
  have hfresh : ∀ u, readyNs.hash.next ≤ u → readyNs.hash.inodes u = none := by
    intro u hu
    exact Function.update_of_ne (Nat.ne_of_gt hu) _ _
  have hop : (DirOp.make (.create (some createFlags)) 0 1 ⟨none, none, ⟨true, true⟩⟩).Ready
      (treeVfs 0) readyNs :=
    ⟨⟨2, 0⟩, smallDir, ⟨rfl, rfl, ⟨smallDir, rfl⟩, SameDir.refl _⟩, createFlags, rfl⟩
  refine (parents_inStep_iff hfresh hop).mpr fun path x hpath hx _ => ?_
  cases hpath
  cases hx
  refine ⟨fun z hz => ?_, rfl⟩
  cases hz
  rfl

/-- A file of one byte. -/
def oneByteFile : LowerInode := ⟨4, false, false, 0⟩

/-- A lower directory with that file and a negative dentry. -/
def linkableTree : LowerTree :=
  { smallTree with
    dentries := Function.update
      (Function.update smallTree.dentries 2 ⟨"a", 1, some oneByteFile, true, false⟩)
      3 ⟨"b", 1, none, true, false⟩
    next := 4
    nextIno := 5
    attr := Function.update smallTree.attr oneByteFile
      { smallTree.attr oneByteFile with nlink := 1, size := 1 } }

/-- The mount over it, with both names looked up. -/
def linkableNs : Ns LowerTree LowerInode :=
  let s := mountedNs linkableTree ⟨1, 0⟩ smallDir fun _ => linkableTree.attr smallDir
  { s with
    dentries := Function.update
      (Function.update s.dentries 1 (some ⟨"a", 0, some 1, true, true, some (some ⟨2, 0⟩)⟩))
      2 (some ⟨"b", 0, none, true, true, some (some ⟨3, 0⟩)⟩)
    nextDentry := 3
    hash := s.hash.insertNew ⟨some oneByteFile, false⟩
    attr := Function.update s.attr 1 (linkableTree.attr oneByteFile) }

/-- After `link("a", "b")` the upper directory has the size of the file. -/
theorem link_out_of_step :
    (DirOp.make (.link 1) 0 2 ⟨none, none, ⟨true, true⟩⟩).Ready (treeVfs 0) linkableNs ∧
      ¬ Yields (wrapfsLink (treeVfs 0) 1 0 2 ⟨none, none, ⟨true, true⟩⟩) linkableNs fun err s' =>
        err = none → InStep (treeVfs 0) s' 0 := by
  refine ⟨⟨⟨3, 0⟩, smallDir, ⟨rfl, rfl, ⟨smallDir, rfl⟩, SameDir.refl _⟩,
    _, 1, ⟨2, 0⟩, oneByteFile, rfl, rfl, rfl, rfl, Nat.one_ne_zero, ?_⟩, fun h => ?_⟩
  · intro hinode
    have hsame : some oneByteFile = some smallDir := hinode
    cases hsame
  · have hsize := (h _ _ _ rfl rfl smallDir rfl).size
    have hfile : (1 : ℕ) = 0 := hsize
    cases hfile

end Wrapfs.Namespace
