import Mathlib
import Wrapfs.Namespace.References
import Wrapfs.Namespace.MirrorInv

/-!
# The directory operations as the VFS calls them

The VFS never calls a directory operation out of the blue.  It holds the `i_mutex` of the
directory, looks the last component up among its own dentries, calls `wrapfs_lookup` only if that
finds nothing, and only then calls the operation; after a successful rename it moves its own
dentries.  Each action of the machine `vfsStep` is one such system call, run to its end, or the
eviction of a dentry or an inode.

This is what `Wrapfs.Namespace.References` does without: its calls are made on any dentries
whatever, which is enough for what is held.  What the tree looks like depends on the discipline of
the VFS, and so do the results about it.

## What is modelled of the VFS

* `d_lookup` is a search for a hashed dentry of the name (`child`).  A dentry that a system call
  leaves unhashed, such as the negative dentry of a failed creation, cannot be found again and is
  only ever evicted.  When that happens is left open.
* The checks that come before an operation are there as far as an operation relies on them: that
  the target of a creation is negative, that a removal has the type asked for, that the two names
  of a rename are not names of one inode (`vfsRename`).
* Permissions, quotas and notifications are not: they make a system call fail early, and a call
  that fails early is one that does nothing.
* System calls are not interleaved: each runs to its end.  In one directory its `i_mutex` sees to
  that, since it is held from the lookup to the end of the operation; calls in different
  directories meet in the inode hash and in the lower file system only.

Dentries and inodes may be evicted between any two calls, in any order the kernel could choose: a
dentry only after its children, an inode only when no dentry has it.
-/

namespace Wrapfs.Namespace

open Ledger Runs

abbrev TreeOp (α : Type) : Type := NsOp LowerTree LowerInode α

namespace Core

/-- `d_lookup` among the upper dentries. -/
def child (k : TreeCore) (parent : ℕ) (name : String) : Option ℕ :=
  (List.range k.nextDentry).find? fun d =>
    match k.dentries d with
    | none => false
    | some e => e.hashed && decide (e.parent = parent) && decide (e.name = name)

/-- The inode of a dentry. -/
def inodeOf (k : TreeCore) (d : ℕ) : Option ℕ := (k.dentries d).bind UpperDentry.inode

/-- The type of an upper inode is that of its lower inode. -/
def lowerInodeOf (k : TreeCore) (d : ℕ) : Option LowerInode :=
  (k.inodeOf d).bind k.hash.lowerOf

/-- A directory in which names can be looked up: it has not been removed. -/
def isDirectory (k : TreeCore) (d : ℕ) : Bool :=
  ((k.dentries d).map UpperDentry.hashed).getD false &&
    ((k.lowerInodeOf d).map LowerInode.isDir).getD false

/-- No dentry has `d` as parent. -/
def childless (k : TreeCore) (d : ℕ) : Bool :=
  (List.range k.nextDentry).all fun c =>
    match k.dentries c with
    | none => true
    | some e => decide (e.parent ≠ d)

/-- No dentry has inode `u`. -/
def unused (k : TreeCore) (u : ℕ) : Bool :=
  (List.range k.nextDentry).all fun c => decide (k.inodeOf c ≠ some u)

end Core

/-- The answers the walk to the last component gets: whether a dentry could be
allocated, and those of `wrapfs_lookup`. -/
structure WalkCalls where
  alloc : Bool
  lookup : LookupCalls

section Operations

variable (super : ℕ)

/-- The walk to the last component. -/
def walkTo (parent : ℕ) (name : String) (flags : LookupFlags) (c : WalkCalls) :
    TreeOp (Except Errno ℕ) := do
  let s ← look
  match s.child parent name with
  | some d => pure (.ok d)
  | none =>
      if c.alloc then do
        let d ← dAlloc parent name
        let err ← wrapfsLookup (treeVfs super) d (some flags) c.lookup
        match err with
        | some err => pure (.error err)
        | none => pure (.ok d)
      else pure (.error .ENOMEM)

/-- The four operations that make a file; `nd` is for `wrapfs_create`. -/
def wrapfsMake (kind : NewKind) (nd : Option LookupFlags) (dir d : ℕ) (c : NewCalls) :
    TreeOp (Option Errno) :=
  match kind with
  | .create => wrapfsCreate (treeVfs super) dir d nd c
  | .symlink => wrapfsSymlink (treeVfs super) dir d c
  | .mkdir => wrapfsMkdir (treeVfs super) dir d c
  | .mknod => wrapfsMknod (treeVfs super) dir d c

/-- Call `op` on a dentry that the walk has left negative, with the inode of the
directory. -/
def onNegative (parent d : ℕ) (op : ℕ → TreeOp (Option Errno)) : TreeOp Unit := do
  let e ← dentryAt d
  match e.inode with
  | some _ => pure ()
  | none => do
      let s ← look
      let dir ← deref (s.inodeOf parent)
      discard (op dir)

/-- Call `op` on a dentry if it is a directory or not, as asked. -/
def onType (isDir : Bool) (parent d : ℕ) (op : ℕ → TreeOp (Option Errno)) : TreeOp Unit := do
  let s ← look
  if (s.lowerInodeOf d).map LowerInode.isDir = some isDir then do
    let dir ← deref (s.inodeOf parent)
    discard (op dir)
  else pure ()

/-- `d_move` of upper dentries. -/
def dMove (old new : ℕ) : TreeOp Unit := do
  let e ← dentryAt old
  let e' ← dentryAt new
  changeCore fun k =>
    (k.setDentry new (some { e' with name := e.name, parent := e.parent, hashed := false })).setDentry
      old (some { e with name := e'.name, parent := e'.parent, hashed := true })

/-- `vfs_rename`: nothing is done for two names of one inode. -/
def vfsRename (oldParent old newParent new : ℕ) (c : RenameCalls) : TreeOp Unit := do
  let s ← look
  if s.inodeOf old = s.inodeOf new then pure ()
  else do
    let oldDir ← deref (s.inodeOf oldParent)
    let newDir ← deref (s.inodeOf newParent)
    let err ← wrapfsRename (treeVfs super) oldDir old newDir new c
    match err with
    | some _ => pure ()
    | none => dMove old new

/-- A walk that goes on with `next`. -/
def walkThen (parent : ℕ) (name : String) (flags : LookupFlags) (c : WalkCalls)
    (next : ℕ → TreeOp Unit) : TreeOp Unit := do
  let found ← walkTo super parent name flags c
  match found with
  | .error _ => pure ()
  | .ok d => next d

/-- The system calls, and evictions. -/
inductive VfsAction where
  | lookup (parent : ℕ) (name : String) (flags : LookupFlags) (w : WalkCalls)
  /-- `nd` is `NULL` for a `create` that a `mknod` of a regular file asks for -/
  | make (kind : NewKind) (nd : Option LookupFlags) (parent : ℕ) (name : String) (w : WalkCalls)
      (c : NewCalls)
  | link (old parent : ℕ) (name : String) (w : WalkCalls) (c : NewCalls)
  | unlink (parent : ℕ) (name : String) (w : WalkCalls) (c : RemoveCalls)
  | rmdir (parent : ℕ) (name : String) (w : WalkCalls) (c : RemoveCalls)
  | rename (oldParent : ℕ) (oldName : String) (newParent : ℕ) (newName : String)
      (w w' : WalkCalls) (c : RenameCalls)
  | evictDentry (d : ℕ)
  | evictInode (u : ℕ)

/-- A component of a path has no slash, and is looked up in a directory. -/
def CanWalk (k : TreeCore) (parent : ℕ) (name : String) : Prop :=
  k.isDirectory parent = true ∧ name ≠ "/"

instance (k : TreeCore) (parent : ℕ) (name : String) : Decidable (CanWalk k parent name) :=
  inferInstanceAs (Decidable (_ ∧ _))

/-- What the kernel runs. -/
def vfsOp : VfsAction → TreeOp Unit
  | .lookup parent name flags w => do
      let s ← look
      if CanWalk s.toCore parent name then
        walkThen super parent name flags w fun _ => pure ()
      else pure ()
  | .make kind nd parent name w c => do
      let s ← look
      if CanWalk s.toCore parent name then
        walkThen super parent name createFlags w fun d =>
          onNegative parent d fun dir => wrapfsMake super kind nd dir d c
      else pure ()
  | .link old parent name w c => do
      let s ← look
      if CanWalk s.toCore parent name ∧ (s.lowerInodeOf old).isSome then
        walkThen super parent name createFlags w fun d =>
          onNegative parent d fun dir => wrapfsLink (treeVfs super) old dir d c
      else pure ()
  | .unlink parent name w c => do
      let s ← look
      if CanWalk s.toCore parent name then
        walkThen super parent name walkFlags w fun d =>
          onType false parent d fun dir => wrapfsUnlink (treeVfs super) dir d c
      else pure ()
  | .rmdir parent name w c => do
      let s ← look
      if CanWalk s.toCore parent name then
        walkThen super parent name walkFlags w fun d =>
          onType true parent d fun dir => wrapfsRmdir (treeVfs super) dir d c
      else pure ()
  | .rename oldParent oldName newParent newName w w' c => do
      let s ← look
      if CanWalk s.toCore oldParent oldName ∧ CanWalk s.toCore newParent newName then
        walkThen super oldParent oldName walkFlags w fun old =>
          walkThen super newParent newName targetFlags w' fun new =>
            vfsRename super oldParent old newParent new c
      else pure ()
  | .evictDentry d => do
      let s ← look
      if d ≠ 0 ∧ s.childless d then dFree d else pure ()
  | .evictInode u => do
      let s ← look
      if s.unused u then changeCore fun k => k.setHash (k.hash.set u none) else pure ()

/-- One system call or eviction. -/
def vfsStep (s : Ns LowerTree LowerInode) (a : VfsAction) :
    Except Fault (Ns LowerTree LowerInode) :=
  match vfsOp super a s with
  | .done _ s' _ => .ok s'
  | .fault e _ => .error e

end Operations

end Wrapfs.Namespace
