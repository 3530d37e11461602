import Mathlib
import Wrapfs.Kernel
import Wrapfs.Foundations.LedgerOp
import Wrapfs.Namespace.Iget
import Wrapfs.File.PassThrough

/-!
# The directory operations

`lookup.c`, `inode.c`, `dentry.c` and the path helpers of `wrapfs.h`, as code that works on the
dentries and inodes of one mounted super block and on the state of the lower file system.

## The state

`Ns σ ι` is a mounted super block: the state of the lower file system, the upper dentries, the
inode hash of `Wrapfs.Namespace.Iget`, and the attributes of the upper inodes.  The attributes are
set apart from the rest, which is `Core σ ι`: nothing in the code reads them to decide what to do,
so every result that is not about attributes is a statement about the core, and copying an
attribute is invisible to it (`Ns.touch_toCore`).

A dentry has its private data as `Option (Option LowerPath)`: none if there is no
`wrapfs_dentry_info`, and in it a lower path or none.  The code tells the two apart in some places
and follows the null pointer in others.

## How the code is rendered

* **The lower file system** is a parameter, `LowerVfs σ ι`: a type of states `σ`, a type of lower
  inodes `ι`, what wrapfs reads of them, and the calls it makes.  Each call takes the error it is
  made to fail with, if any.  What the calls do to the lower state is not fixed here.
* **References and locks** are the resources of the ledger: every `dget`, `mntget`, `mutex_lock`
  and `mnt_want_write` is an `acquire`, every `dput`, `mntput`, `mutex_unlock` and
  `mnt_drop_write` a `release`.  The `i_mutex` of a lower inode is named by the dentry it is
  reached through: the code always unlocks through the dentry it has locked through, which it
  holds in between.
* **Return codes** are `Option Errno`; `none` is 0.
* **Bad pointers.**  Code that follows a `NULL` pointer stops with `Fault.badPointer`.  What it
  holds then is never given back, and the events of a fault are kept for that reason.

`wrapfs_symlink`, `wrapfs_mkdir` and `wrapfs_mknod` differ in the lower call and in what they do
at the end, and are `wrapfsNew` at their own values; `wrapfs_create` follows its `nd` besides and
has the same parts put together differently.  `wrapfs_link`, `wrapfs_unlink`, `wrapfs_rmdir` and
`wrapfs_rename` each do something the others do not and have bodies of their own.

The saving and restoring of `nd->path` around the lower calls has no effect outside them; of it
only the following of `nd` is kept.

## Who uses what

What the operations hold is said once, in `Wrapfs.Namespace.Balance`, and what they do to the core
once, in `Wrapfs.Namespace.CoreSteps`; both follow the code through the rules of
`Wrapfs.Namespace.Rules`.  The last section has what the VFS does around these calls, so far as
more than one machine needs it.
-/

namespace Wrapfs.Namespace

open Ledger

/-! ## Attributes -/

/-- The inode attributes that wrapfs copies. -/
structure Attr where
  mode : ℕ
  uid : ℕ
  gid : ℕ
  rdev : ℕ
  blkbits : ℕ
  flags : ℕ
  nlink : ℕ
  size : ℕ
  blocks : ℕ
  atime : ℕ
  mtime : ℕ
  ctime : ℕ

/-- `fsstack_copy_attr_atime`. -/
def fsstackCopyAttrAtime (dst src : Attr) : Attr := { dst with atime := src.atime }

/-- `fsstack_copy_attr_times`. -/
def fsstackCopyAttrTimes (dst src : Attr) : Attr :=
  { dst with atime := src.atime, mtime := src.mtime, ctime := src.ctime }

/-- `fsstack_copy_inode_size`. -/
def fsstackCopyInodeSize (dst src : Attr) : Attr :=
  { dst with size := src.size, blocks := src.blocks }

/-- `set_nlink(dst, src->i_nlink)`. -/
def copyNlink (dst src : Attr) : Attr := { dst with nlink := src.nlink }

/-- Everything but the size. -/
def fsstackCopyAttrAll (dst src : Attr) : Attr :=
  { src with size := dst.size, blocks := dst.blocks }

/-! ## The lower file system -/

/-- A `struct path` of the lower file system. -/
structure LowerPath where
  dentry : ℕ
  mnt : ℕ
  deriving DecidableEq

/-- What wrapfs takes and gives back. -/
inductive Res where
  | dentry (lower : ℕ)
  | mnt (lower : ℕ)
  /-- the `i_mutex` of the inode of a lower dentry -/
  | iMutex (lower : ℕ)
  /-- the lower `s_vfs_rename_mutex` -/
  | renameMutex
  | mntWrite (lower : ℕ)
  /-- an upper dentry, held while its child is looked up -/
  | upperDentry (d : ℕ)
  deriving DecidableEq

/-- What the four operations that make a new file make. -/
inductive NewKind where
  | create
  | symlink
  | mkdir
  | mknod
  deriving DecidableEq

/-- The lower file system.  A directory is passed to a call by its inode pointer. -/
structure LowerVfs (σ ι : Type) where
  /-- the lower super block of the mount -/
  super : ℕ
  dInode : σ → ℕ → Option ι
  dParent : σ → ℕ → ℕ
  /-- `DCACHE_NFSFS_RENAMED` -/
  nfsRenamed : σ → ℕ → Bool
  iSb : ι → ℕ
  hasReadlink : ι → Bool
  iAttr : σ → ι → Attr
  vfsPathLookup : σ → LowerPath → String → Option Errno → Except Errno LowerPath × σ
  dLookup : σ → ℕ → String → Option ℕ
  /-- `d_alloc` and `d_add` of a negative dentry -/
  dAllocNegative : σ → ℕ → String → ℕ × σ
  /-- what `lock_rename` returns -/
  trap : σ → ℕ → ℕ → Option ℕ
  vfsNew : NewKind → σ → Option ι → ℕ → Option Errno → Option Errno × σ
  vfsLink : σ → ℕ → Option ι → ℕ → Option Errno → Option Errno × σ
  /-- The last argument asks for a silly rename, to the name given. -/
  vfsUnlink : σ → Option ι → ℕ → Option Errno → Option String → Option Errno × σ
  vfsRmdir : σ → Option ι → ℕ → Option Errno → Option Errno × σ
  vfsRename : σ → Option ι → ℕ → Option ι → ℕ → Option Errno → Option Errno × σ
  notifyChange : σ → ℕ → Iattr → Option Errno → Option Errno × σ

/-! ## The mounted super block -/

/-- An upper dentry.  `fsdata` is its private data, if allocated, with the lower path
stored in it, if any. -/
structure UpperDentry where
  name : String
  parent : ℕ
  inode : Option ℕ
  hashed : Bool
  /-- `d_op` is set -/
  dOp : Bool
  fsdata : Option (Option LowerPath)

/-- The dentries and inodes of the super block, and the lower file system. -/
structure Core (σ ι : Type) where
  low : σ
  dentries : ℕ → Option UpperDentry
  nextDentry : ℕ
  hash : InodeHash ι

/-- The same with the attributes of the upper inodes. -/
structure Ns (σ ι : Type) extends Core σ ι where
  attr : ℕ → Attr

variable {σ ι : Type}

namespace Core

/-- The lower path stored in dentry `d`. -/
def stored (k : Core σ ι) (d : ℕ) : Option LowerPath :=
  ((k.dentries d).bind UpperDentry.fsdata).join

/-- The lower file system changes. -/
def setLow (k : Core σ ι) (low : σ) : Core σ ι := { k with low := low }

/-- The inode hash changes. -/
def setHash (k : Core σ ι) (hash : InodeHash ι) : Core σ ι := { k with hash := hash }

/-- Dentry `d` changes, or goes. -/
def setDentry (k : Core σ ι) (d : ℕ) (e : Option UpperDentry) : Core σ ι :=
  { k with dentries := Function.update k.dentries d e }

@[simp] theorem setLow_low (k : Core σ ι) (low : σ) : (k.setLow low).low = low := rfl
@[simp] theorem setLow_dentries (k : Core σ ι) (low : σ) :
    (k.setLow low).dentries = k.dentries := rfl
@[simp] theorem setLow_hash (k : Core σ ι) (low : σ) : (k.setLow low).hash = k.hash := rfl
@[simp] theorem setLow_nextDentry (k : Core σ ι) (low : σ) :
    (k.setLow low).nextDentry = k.nextDentry := rfl
@[simp] theorem setHash_low (k : Core σ ι) (hash : InodeHash ι) :
    (k.setHash hash).low = k.low := rfl
@[simp] theorem setHash_dentries (k : Core σ ι) (hash : InodeHash ι) :
    (k.setHash hash).dentries = k.dentries := rfl
@[simp] theorem setHash_hash (k : Core σ ι) (hash : InodeHash ι) :
    (k.setHash hash).hash = hash := rfl
@[simp] theorem setHash_nextDentry (k : Core σ ι) (hash : InodeHash ι) :
    (k.setHash hash).nextDentry = k.nextDentry := rfl
@[simp] theorem setDentry_low (k : Core σ ι) (d : ℕ) (e : Option UpperDentry) :
    (k.setDentry d e).low = k.low := rfl
@[simp] theorem setDentry_hash (k : Core σ ι) (d : ℕ) (e : Option UpperDentry) :
    (k.setDentry d e).hash = k.hash := rfl
@[simp] theorem setDentry_nextDentry (k : Core σ ι) (d : ℕ) (e : Option UpperDentry) :
    (k.setDentry d e).nextDentry = k.nextDentry := rfl
@[simp] theorem setDentry_self (k : Core σ ι) (d : ℕ) (e : Option UpperDentry) :
    (k.setDentry d e).dentries d = e := Function.update_self _ _ _

theorem setDentry_of_ne (k : Core σ ι) {d d' : ℕ} (hd : d' ≠ d) (e : Option UpperDentry) :
    (k.setDentry d e).dentries d' = k.dentries d' := Function.update_of_ne hd _ _

@[simp] theorem setDentry_setDentry (k : Core σ ι) (d : ℕ) (e e' : Option UpperDentry) :
    (k.setDentry d e).setDentry d e' = k.setDentry d e' := by
  simp [setDentry]

/-- A dentry has a lower path when it is there, has private data, and a path in it. -/
theorem stored_eq_some {k : Core σ ι} {d : ℕ} {path : LowerPath} :
    k.stored d = some path ↔ ∃ e, k.dentries d = some e ∧ e.fsdata = some (some path) := by
  simp [stored, Option.join_eq_some_iff, Option.bind_eq_some_iff]

end Core

namespace Ns

/-- Change the attributes of inode `u`. -/
def touch (s : Ns σ ι) (u : ℕ) (f : Attr → Attr) : Ns σ ι :=
  { s with attr := Function.update s.attr u (f (s.attr u)) }

/-- Change everything else. -/
def withCore (s : Ns σ ι) (k : Core σ ι) : Ns σ ι := { s with toCore := k }

/-- Copying attributes leaves the core alone. -/
@[simp] theorem touch_toCore (s : Ns σ ι) (u : ℕ) (f : Attr → Attr) :
    (s.touch u f).toCore = s.toCore := rfl

@[simp] theorem withCore_toCore (s : Ns σ ι) (k : Core σ ι) : (s.withCore k).toCore = k := rfl

end Ns

/-- Code of wrapfs. -/
abbrev NsOp (σ ι α : Type) : Type := Op (Ns σ ι) Res Fault α

/-! ## Pointers, references and locks -/

/-- Follow a pointer. -/
def deref {α : Type} : Option α → NsOp σ ι α
  | none => fault .badPointer
  | some a => pure a

/-- A change of the core. -/
def changeCore (f : Core σ ι → Core σ ι) : NsOp σ ι Unit :=
  change fun s => s.withCore (f s.toCore)

/-- A change of the attributes of an upper inode. -/
def touchInode (u : ℕ) (f : Attr → Attr) : NsOp σ ι Unit := change fun s => s.touch u f

/-- The upper dentry `d`. -/
def dentryAt (d : ℕ) : NsOp σ ι UpperDentry := do
  let s ← look
  deref (s.dentries d)

/-- `wrapfs_lower_inode`. -/
def wrapfsLowerInode (u : ℕ) : NsOp σ ι (Option ι) := do
  let s ← look
  let inode ← deref (s.hash.inodes u)
  pure inode.lower

/-- `path_get`. -/
def pathGet (path : LowerPath) : NsOp σ ι Unit := do
  acquire (.mnt path.mnt)
  acquire (.dentry path.dentry)

/-- `path_put`. -/
def pathPut (path : LowerPath) : NsOp σ ι Unit := do
  release (.dentry path.dentry)
  release (.mnt path.mnt)

/-- `wrapfs_get_lower_path`.  Every caller follows the path it gets, so a stored
`NULL` path is a bad pointer at once. -/
def wrapfsGetLowerPath (d : ℕ) : NsOp σ ι LowerPath := do
  let s ← look
  let path ← deref (s.stored d)
  pathGet path
  pure path

/-- `wrapfs_put_lower_path`. -/
def wrapfsPutLowerPath (path : LowerPath) : NsOp σ ι Unit := pathPut path

/-- `wrapfs_set_lower_path`. -/
def wrapfsSetLowerPath (d : ℕ) (path : LowerPath) : NsOp σ ι Unit := do
  let e ← dentryAt d
  let _ ← deref e.fsdata
  changeCore fun k => k.setDentry d (some { e with fsdata := some (some path) })

/-- `wrapfs_put_reset_lower_path`.  `path_put` of a `NULL` path does nothing. -/
def wrapfsPutResetLowerPath (d : ℕ) : NsOp σ ι Unit := do
  let e ← dentryAt d
  let path ← deref e.fsdata
  changeCore fun k => k.setDentry d (some { e with fsdata := some none })
  match path with
  | none => pure ()
  | some path => pathPut path

variable (V : LowerVfs σ ι)

/-- `lock_parent`. -/
def lockParent (lower : ℕ) : NsOp σ ι ℕ := do
  let s ← look
  acquire (.dentry (V.dParent s.low lower))
  acquire (.iMutex (V.dParent s.low lower))
  pure (V.dParent s.low lower)

/-- `unlock_dir`. -/
def unlockDir (dir : ℕ) : NsOp σ ι Unit := do
  release (.iMutex dir)
  release (.dentry dir)

/-- `lock_rename`; the dentry returned is in the way of the rename. -/
def lockRename (p₁ p₂ : ℕ) : NsOp σ ι (Option ℕ) := do
  let s ← look
  if p₁ = p₂ then
    acquire (.iMutex p₁)
    pure none
  else
    acquire .renameMutex
    acquire (.iMutex p₁)
    acquire (.iMutex p₂)
    pure (V.trap s.low p₁ p₂)

/-- `unlock_rename`. -/
def unlockRename (p₁ p₂ : ℕ) : NsOp σ ι Unit := do
  release (.iMutex p₁)
  if p₁ = p₂ then pure ()
  else
    release (.iMutex p₂)
    release .renameMutex

/-- `err = mnt_want_write(mnt); if (err) goto …; body; mnt_drop_write(mnt)`. -/
def withWrite (mnt : ℕ) (wantWrite : Option Errno) (body : NsOp σ ι (Option Errno)) :
    NsOp σ ι (Option Errno) :=
  match wantWrite with
  | some e => pure (some e)
  | none => do
      acquire (.mntWrite mnt)
      let err ← body
      release (.mntWrite mnt)
      pure err

/-- Copy attributes of a lower inode to the upper inode `u`. -/
def copyFrom (copy : Attr → Attr → Attr) (u : ℕ) (src : Option ι) : NsOp σ ι Unit := do
  let x ← deref src
  let s ← look
  touchInode u fun a => copy a (V.iAttr s.low x)

/-! ## `lookup.c` -/

/-- `d_add`. -/
def dAdd (d u : ℕ) : NsOp σ ι Unit := do
  let e ← dentryAt d
  changeCore fun k => k.setDentry d (some { e with inode := some u, hashed := true })

/-- The attributes of an inode just made by `wrapfs_iget`. -/
def initAttrs (u : ℕ) (lower : ι) : NsOp σ ι Unit := do
  copyFrom V fsstackCopyAttrAll u (some lower)
  copyFrom V fsstackCopyInodeSize u (some lower)

/-- `wrapfs_interpose`. -/
def wrapfsInterpose [DecidableEq ι] (d : ℕ) (path : LowerPath) (c : IgetCalls) :
    NsOp σ ι (Option Errno) := do
  let s ← look
  let lower ← deref (V.dInode s.low path.dentry)
  if V.iSb lower ≠ V.super then pure (some .EXDEV)
  else do
    changeCore fun k => k.setHash (wrapfsIget s.hash lower c).hash
    match (wrapfsIget s.hash lower c).inode with
    | .error e => pure (some e)
    | .ok u => do
        (if (wrapfsIget s.hash lower c).created then initAttrs V u lower else pure ())
        dAdd d u
        pure none

/-- The flags of a `struct nameidata` that the code looks at. -/
structure LookupFlags where
  create : Bool
  renameTarget : Bool
  rcu : Bool

/-- The flags of the walks: for nothing in particular, for a creation, for the target
of a rename. -/
def walkFlags : LookupFlags := ⟨false, false, false⟩
def createFlags : LookupFlags := ⟨true, false, false⟩
def targetFlags : LookupFlags := ⟨false, true, false⟩

/-- The answers a lookup gets: whether the private data could be allocated, what
`vfs_path_lookup` fails with, whether a lower dentry could be allocated, and those of
`wrapfs_iget`. -/
structure LookupCalls where
  privateData : Bool
  pathLookup : Option Errno
  lowerAlloc : Bool
  iget : IgetCalls

/-- `setup_lower:` of `__wrapfs_lookup`, with a reference to the lower dentry. -/
def setupLower (d lower mnt : ℕ) (flags : LookupFlags) : NsOp σ ι (Option Errno) := do
  acquire (.mnt mnt)
  wrapfsSetLowerPath d ⟨lower, mnt⟩
  pure (if flags.create || flags.renameTarget then none else some .ENOENT)

/-- `__wrapfs_lookup` when `vfs_path_lookup` has found a file and returned its path,
with references. -/
def lookupPositive [DecidableEq ι] (d : ℕ) (path : LowerPath) (c : IgetCalls) :
    NsOp σ ι (Option Errno) := do
  pathGet path
  wrapfsSetLowerPath d path
  let err ← wrapfsInterpose V d path c
  match err with
  | some err => do
      wrapfsPutResetLowerPath d
      pure (some err)
  | none => pure none

/-- `__wrapfs_lookup` when there is no such file. -/
def lookupNegative (d : ℕ) (name : String) (flags : LookupFlags) (lowerParent : LowerPath)
    (lowerAlloc : Bool) : NsOp σ ι (Option Errno) := do
  let s ← look
  match V.dLookup s.low lowerParent.dentry name with
  | some lower => do
      acquire (.dentry lower)
      setupLower d lower lowerParent.mnt flags
  | none =>
      if lowerAlloc then do
        let alloc := V.dAllocNegative s.low lowerParent.dentry name
        changeCore fun k => k.setLow alloc.2
        acquire (.dentry alloc.1)
        setupLower d alloc.1 lowerParent.mnt flags
      else pure (some .ENOMEM)

/-- `__wrapfs_lookup`. -/
def wrapfsLookupLower [DecidableEq ι] (d : ℕ) (flags : LookupFlags) (lowerParent : LowerPath)
    (c : LookupCalls) : NsOp σ ι (Option Errno) := do
  let e ← dentryAt d
  changeCore fun k => k.setDentry d (some { e with dOp := true })
  if e.parent = d then pure none
  else do
    let s ← look
    let call := V.vfsPathLookup s.low lowerParent e.name c.pathLookup
    changeCore fun k => k.setLow call.2
    match call.1 with
    | .ok path => lookupPositive V d path c.iget
    | .error err =>
        if err ≠ .ENOENT then pure (some err)
        else lookupNegative V d e.name flags lowerParent c.lowerAlloc

/-- `new_dentry_private_data`. -/
def newDentryPrivateData (d : ℕ) (alloc : Bool) : NsOp σ ι (Option Errno) :=
  if alloc then do
    let e ← dentryAt d
    changeCore fun k => k.setDentry d (some { e with fsdata := some none })
    pure none
  else pure (some .ENOMEM)

/-- Copy attributes of the lower inode of `u` to `u`. -/
def copyFromOwn (copy : Attr → Attr → Attr) (u : ℕ) : NsOp σ ι Unit := do
  let lower ← wrapfsLowerInode u
  copyFrom V copy u lower

/-- The attributes a successful `wrapfs_lookup` copies. -/
def copyLookupAttrs (d parent : ℕ) : NsOp σ ι Unit := do
  let e ← dentryAt d
  (match e.inode with
    | none => pure ()
    | some u => copyFromOwn V fsstackCopyAttrTimes u)
  let p ← dentryAt parent
  let u ← deref p.inode
  copyFromOwn V fsstackCopyAttrAtime u

/-- What `wrapfs_lookup` does while it holds the lower path of the parent. -/
def lookupUnderParent [DecidableEq ι] (d parent : ℕ) (flags : LookupFlags)
    (lowerParent : LowerPath) (c : LookupCalls) : NsOp σ ι (Option Errno) := do
  let err ← newDentryPrivateData d c.privateData
  match err with
  | some err => pure (some err)
  | none => do
      let err ← wrapfsLookupLower V d flags lowerParent c
      match err with
      | some err => pure (some err)
      | none => do
          copyLookupAttrs V d parent
          pure none

/-- `wrapfs_lookup`. -/
def wrapfsLookup [DecidableEq ι] (d : ℕ) (nd : Option LookupFlags) (c : LookupCalls) :
    NsOp σ ι (Option Errno) :=
  match nd with
  | none => fault .bugOn
  | some flags => do
      let e ← dentryAt d
      acquire (.upperDentry e.parent)
      let lowerParent ← wrapfsGetLowerPath e.parent
      let err ← lookupUnderParent V d e.parent flags lowerParent c
      wrapfsPutLowerPath lowerParent
      release (.upperDentry e.parent)
      pure err

/-! ## `inode.c` -/

/-- The answers an operation that makes or links a file gets. -/
structure NewCalls where
  wantWrite : Option Errno
  vfs : Option Errno
  iget : IgetCalls

/-- The part of the next function under `mnt_want_write`. -/
def newUnderWrite [DecidableEq ι] (kind : NewKind) (finish : NsOp σ ι Unit) (dir d : ℕ)
    (path : LowerPath) (parent : ℕ) (c : NewCalls) : NsOp σ ι (Option Errno) := do
  let s ← look
  let call := V.vfsNew kind s.low (V.dInode s.low parent) path.dentry c.vfs
  changeCore fun k => k.setLow call.2
  match call.1 with
  | some err => pure (some err)
  | none => do
      let err ← wrapfsInterpose V d path c.iget
      match err with
      | some err => pure (some err)
      | none => do
          copyFromOwn V fsstackCopyAttrTimes dir
          let s ← look
          copyFrom V fsstackCopyInodeSize dir (V.dInode s.low parent)
          finish
          pure none

/-- What the operations that make a file have around the lower call: the lower path of the
dentry, its parent locked, and write access. -/
def underLockedParent (d : ℕ) (wantWrite : Option Errno)
    (body : LowerPath → ℕ → NsOp σ ι (Option Errno)) : NsOp σ ι (Option Errno) := do
  let path ← wrapfsGetLowerPath d
  let parent ← lockParent V path.dentry
  let err ← withWrite path.mnt wantWrite (body path parent)
  unlockDir parent
  wrapfsPutLowerPath path
  pure err

/-- `wrapfs_symlink`, `wrapfs_mkdir` and `wrapfs_mknod`; `finish` is what comes after the
attributes of the directory are copied. -/
def wrapfsNew [DecidableEq ι] (kind : NewKind) (finish : NsOp σ ι Unit) (dir d : ℕ)
    (c : NewCalls) : NsOp σ ι (Option Errno) :=
  underLockedParent V d c.wantWrite fun path parent =>
    newUnderWrite V kind finish dir d path parent c

section New

variable [DecidableEq ι]

/-- `wrapfs_create` follows `nd`, to put the lower path into it for the time of the lower
call.  An `open` gives it one; a `mknod` of a regular file gives it `NULL`. -/
def wrapfsCreate (dir d : ℕ) (nd : Option LookupFlags) (c : NewCalls) :
    NsOp σ ι (Option Errno) :=
  underLockedParent V d c.wantWrite fun path parent => do
    let _ ← deref nd
    newUnderWrite V .create (pure ()) dir d path parent c

/-- `wrapfs_symlink(dir, dentry, symname)`. -/
def wrapfsSymlink : ℕ → ℕ → NewCalls → NsOp σ ι (Option Errno) :=
  wrapfsNew V .symlink (pure ())

/-- `wrapfs_mknod(dir, dentry, mode, dev)`. -/
def wrapfsMknod : ℕ → ℕ → NewCalls → NsOp σ ι (Option Errno) :=
  wrapfsNew V .mknod (pure ())

/-- `wrapfs_mkdir` also updates the link count of the directory. -/
def wrapfsMkdir (dir : ℕ) : ℕ → NewCalls → NsOp σ ι (Option Errno) :=
  wrapfsNew V .mkdir (copyFromOwn V copyNlink dir) dir

end New

/-- The part of `wrapfs_link` under `mnt_want_write`. -/
def linkUnderWrite [DecidableEq ι] (uOld dir d : ℕ) (oldPath newPath : LowerPath)
    (parent fileSizeSave : ℕ) (c : NewCalls) : NsOp σ ι (Option Errno) := do
  let s ← look
  let call := V.vfsLink s.low oldPath.dentry (V.dInode s.low parent) newPath.dentry c.vfs
  changeCore fun k => k.setLow call.2
  match call.1 with
  | some err => pure (some err)
  | none =>
      if (V.dInode call.2 newPath.dentry).isNone then pure none
      else do
        let err ← wrapfsInterpose V d newPath c.iget
        match err with
        | some err => pure (some err)
        | none => do
            -- the source of these two is the new file, not the lower directory
            copyFrom V fsstackCopyAttrTimes dir (V.dInode call.2 newPath.dentry)
            copyFrom V fsstackCopyInodeSize dir (V.dInode call.2 newPath.dentry)
            copyFromOwn V copyNlink uOld
            let e ← dentryAt d
            let u ← deref e.inode
            touchInode u fun a => { a with size := fileSizeSave }
            pure none

/-- `wrapfs_link`. -/
def wrapfsLink [DecidableEq ι] (old dir d : ℕ) (c : NewCalls) : NsOp σ ι (Option Errno) := do
  let eOld ← dentryAt old
  let uOld ← deref eOld.inode
  let s ← look
  let oldPath ← wrapfsGetLowerPath old
  let newPath ← wrapfsGetLowerPath d
  let parent ← lockParent V newPath.dentry
  let err ← withWrite newPath.mnt c.wantWrite
    (linkUnderWrite V uOld dir d oldPath newPath parent (s.attr uOld).size c)
  unlockDir parent
  wrapfsPutLowerPath oldPath
  wrapfsPutLowerPath newPath
  pure err

/-- The answers `wrapfs_unlink` and `wrapfs_rmdir` get. -/
structure RemoveCalls where
  wantWrite : Option Errno
  vfs : Option Errno
  /-- a silly rename, to this name -/
  silly : Option String

/-- `d_drop`. -/
def dDrop (d : ℕ) : NsOp σ ι Unit := do
  let e ← dentryAt d
  changeCore fun k => k.setDentry d (some { e with hashed := false })

/-- What `wrapfs_unlink` does once the lower file counts as deleted. -/
def unlinkDeleted (dir d : ℕ) (lowerDir : Option ι) : NsOp σ ι Unit := do
  copyFrom V fsstackCopyAttrTimes dir lowerDir
  copyFrom V fsstackCopyInodeSize dir lowerDir
  let e ← dentryAt d
  let u ← deref e.inode
  copyFromOwn V copyNlink u
  let s ← look
  touchInode u fun a => { a with ctime := (s.attr dir).ctime }
  dDrop d

/-- The part of `wrapfs_unlink` under `mnt_want_write`. -/
def unlinkUnderWrite (dir d : ℕ) (lowerDir : Option ι) (path : LowerPath) (c : RemoveCalls) :
    NsOp σ ι (Option Errno) := do
  let s ← look
  let call := V.vfsUnlink s.low lowerDir path.dentry c.vfs c.silly
  changeCore fun k => k.setLow call.2
  -- a file that NFS has silly-renamed already counts as deleted
  match (if call.1 = some .EBUSY ∧ V.nfsRenamed call.2 path.dentry then none else call.1) with
  | some err => pure (some err)
  | none => do
      unlinkDeleted V dir d lowerDir
      pure none

/-- `wrapfs_unlink`. -/
def wrapfsUnlink (dir d : ℕ) (c : RemoveCalls) : NsOp σ ι (Option Errno) := do
  let lowerDir ← wrapfsLowerInode dir
  let path ← wrapfsGetLowerPath d
  acquire (.dentry path.dentry)
  let parent ← lockParent V path.dentry
  let err ← withWrite path.mnt c.wantWrite (unlinkUnderWrite V dir d lowerDir path c)
  unlockDir parent
  release (.dentry path.dentry)
  wrapfsPutLowerPath path
  pure err

/-- The part of `wrapfs_rmdir` under `mnt_want_write`. -/
def rmdirUnderWrite (dir d : ℕ) (path : LowerPath) (parent : ℕ) (c : RemoveCalls) :
    NsOp σ ι (Option Errno) := do
  let s ← look
  let call := V.vfsRmdir s.low (V.dInode s.low parent) path.dentry c.vfs
  changeCore fun k => k.setLow call.2
  match call.1 with
  | some err => pure (some err)
  | none => do
      dDrop d
      let e ← dentryAt d
      (match e.inode with
        | none => pure ()
        | some u => touchInode u fun a => { a with nlink := 0 })
      copyFrom V fsstackCopyAttrTimes dir (V.dInode call.2 parent)
      copyFrom V fsstackCopyInodeSize dir (V.dInode call.2 parent)
      copyFrom V copyNlink dir (V.dInode call.2 parent)
      pure none

/-- `wrapfs_rmdir`. -/
def wrapfsRmdir (dir d : ℕ) (c : RemoveCalls) : NsOp σ ι (Option Errno) := do
  let path ← wrapfsGetLowerPath d
  let parent ← lockParent V path.dentry
  let err ← withWrite path.mnt c.wantWrite (rmdirUnderWrite V dir d path parent c)
  unlockDir parent
  wrapfsPutLowerPath path
  pure err

/-- The answers `wrapfs_rename` gets. -/
structure RenameCalls where
  wantWriteOld : Option Errno
  wantWriteNew : Option Errno
  vfs : Option Errno

/-- The attributes `wrapfs_rename` copies to a directory. -/
def copyDirAttrs (dir : ℕ) (lowerDir : Option ι) : NsOp σ ι Unit := do
  copyFrom V fsstackCopyAttrAll dir lowerDir
  copyFrom V fsstackCopyInodeSize dir lowerDir

/-- The attributes a successful `wrapfs_rename` copies. -/
def copyRenameAttrs (oldDir newDir : ℕ) (lowerOldDir lowerNewDir : Option ι) :
    NsOp σ ι Unit := do
  copyDirAttrs V newDir lowerNewDir
  if newDir ≠ oldDir then copyDirAttrs V oldDir lowerOldDir else pure ()

/-- The part of `wrapfs_rename` under `mnt_want_write`. -/
def renameUnderWrite (oldDir newDir : ℕ) (oldPath newPath : LowerPath)
    (lowerOldDir lowerNewDir : ℕ) (c : RenameCalls) : NsOp σ ι (Option Errno) := do
  let s ← look
  let call := V.vfsRename s.low (V.dInode s.low lowerOldDir) oldPath.dentry
    (V.dInode s.low lowerNewDir) newPath.dentry c.vfs
  changeCore fun k => k.setLow call.2
  match call.1 with
  | some err => pure (some err)
  | none => do
      copyRenameAttrs V oldDir newDir (V.dInode call.2 lowerOldDir)
        (V.dInode call.2 lowerNewDir)
      pure none

/-- The part of `wrapfs_rename` between `lock_rename` and `unlock_rename`. -/
def renameLocked (oldDir newDir : ℕ) (oldPath newPath : LowerPath)
    (lowerOldDir lowerNewDir : ℕ) (trap : Option ℕ) (c : RenameCalls) :
    NsOp σ ι (Option Errno) :=
  if trap = some oldPath.dentry then pure (some .EINVAL)
  else if trap = some newPath.dentry then pure (some .ENOTEMPTY)
  else
    withWrite oldPath.mnt c.wantWriteOld
      (withWrite newPath.mnt c.wantWriteNew
        (renameUnderWrite V oldDir newDir oldPath newPath lowerOldDir lowerNewDir c))

/-- `wrapfs_rename`. -/
def wrapfsRename (oldDir old newDir new : ℕ) (c : RenameCalls) :
    NsOp σ ι (Option Errno) := do
  let oldPath ← wrapfsGetLowerPath old
  let newPath ← wrapfsGetLowerPath new
  let s ← look
  let lowerOldDir := V.dParent s.low oldPath.dentry
  let lowerNewDir := V.dParent s.low newPath.dentry
  acquire (.dentry lowerOldDir)
  acquire (.dentry lowerNewDir)
  let trap ← lockRename V lowerOldDir lowerNewDir
  let err ← renameLocked V oldDir newDir oldPath newPath lowerOldDir lowerNewDir trap c
  unlockRename lowerOldDir lowerNewDir
  release (.dentry lowerOldDir)
  release (.dentry lowerNewDir)
  wrapfsPutLowerPath oldPath
  wrapfsPutLowerPath newPath
  pure err

/-- `wrapfs_readlink`; `readlink` is what the lower `->readlink` returns. -/
def wrapfsReadlink (d : ℕ) (readlink : Except Errno ℕ) : NsOp σ ι (Except Errno ℕ) := do
  let path ← wrapfsGetLowerPath d
  let s ← look
  let lower ← deref (V.dInode s.low path.dentry)
  let ret : Except Errno ℕ := if V.hasReadlink lower then readlink else .error .EINVAL
  (match ret with
    | .error _ => pure ()
    | .ok _ => do
        let e ← dentryAt d
        let u ← deref e.inode
        copyFrom V fsstackCopyAttrAtime u (some lower))
  wrapfsPutLowerPath path
  pure ret

/-- The answers `wrapfs_setattr` gets: of `inode_change_ok`, of `inode_newsize_ok` and
of the lower `notify_change`. -/
structure SetattrCalls where
  changeOk : Option Errno
  newsizeOk : Option Errno
  notifyChange : Option Errno

/-- The part of `wrapfs_setattr` from the lower `i_mutex` on. -/
def setattrLower (u : ℕ) (lower : Option ι) (path : LowerPath) (ia : Iattr)
    (c : SetattrCalls) : NsOp σ ι (Option Errno) := do
  acquire (.iMutex path.dentry)
  let s ← look
  let call := V.notifyChange s.low path.dentry (lowerIattr ia) c.notifyChange
  changeCore fun k => k.setLow call.2
  release (.iMutex path.dentry)
  match call.1 with
  | some err => pure (some err)
  | none => do
      copyFrom V fsstackCopyAttrAll u lower
      pure none

/-- The part of `wrapfs_setattr` that holds the lower path. -/
def setattrUnderPath (u : ℕ) (lower : Option ι) (path : LowerPath) (ia : Iattr)
    (c : SetattrCalls) : NsOp σ ι (Option Errno) :=
  match ia.size with
  | none => setattrLower V u lower path ia c
  | some size =>
      match c.newsizeOk with
      | some err => pure (some err)
      | none => do
          touchInode u fun a => { a with size := size }
          setattrLower V u lower path ia c

/-- `wrapfs_setattr`. -/
def wrapfsSetattr (d : ℕ) (ia : Iattr) (c : SetattrCalls) : NsOp σ ι (Option Errno) := do
  let e ← dentryAt d
  let u ← deref e.inode
  match c.changeOk with
  | some err => pure (some err)
  | none => do
      let path ← wrapfsGetLowerPath d
      let lower ← wrapfsLowerInode u
      let err ← setattrUnderPath V u lower path ia c
      wrapfsPutLowerPath path
      pure err

/-! ## `dentry.c` -/

/-- `wrapfs_d_revalidate`; `lowerRevalidate` is what the lower `->d_revalidate`
returns, if there is one. -/
def wrapfsDRevalidate (d : ℕ) (nd : Option LookupFlags) (lowerRevalidate : Option ℤ) :
    NsOp σ ι ℤ :=
  if (nd.map LookupFlags.rcu).getD false then pure Errno.ECHILD.ret
  else do
    let path ← wrapfsGetLowerPath d
    let ret ← (match lowerRevalidate with
      | none => pure 1
      | some ret => do
          let _ ← deref nd
          pure ret)
    wrapfsPutLowerPath path
    pure ret

/-- `wrapfs_d_release`. -/
def wrapfsDRelease (d : ℕ) : NsOp σ ι Unit := do
  wrapfsPutResetLowerPath d
  let e ← dentryAt d
  changeCore fun k => k.setDentry d (some { e with fsdata := none })

/-! ## What the VFS does around these -/

/-- `d_alloc` of an upper dentry. -/
def dAlloc (parent : ℕ) (name : String) : NsOp σ ι ℕ := do
  let s ← look
  changeCore fun k =>
    { k.setDentry s.nextDentry (some ⟨name, parent, none, false, false, none⟩) with
      nextDentry := s.nextDentry + 1 }
  pure s.nextDentry

/-- The end of an upper dentry: `->d_release`, if there is a `d_op`, and the dentry is
freed. -/
def dFree (d : ℕ) : NsOp σ ι Unit := do
  let e ← dentryAt d
  (if e.dOp then wrapfsDRelease d else pure ())
  changeCore fun k => k.setDentry d none

end Wrapfs.Namespace
