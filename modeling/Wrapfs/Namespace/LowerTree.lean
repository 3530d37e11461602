import Mathlib
import Wrapfs.Namespace.Operations

/-!
# A lower file system as the VFS documents it

The lower file system as a tree of dentries, for the results that depend on what the lower calls
do: `vfs_create` and its like instantiate a negative dentry, `vfs_unlink` and `vfs_rmdir` unhash
the dentry, `vfs_rename` moves it, a failing call changes nothing.  `treeVfs` is this tree as a
`LowerVfs`.

It is an assumption about the world below wrapfs and not code of wrapfs.  What can be said for any
lower file system is said without it; what the mirror and the link counts say depends on it.

## What is modelled

A dentry of the tree stands for a directory entry, so it stays in the tree; which unreferenced
dentries are in memory does not matter here.  A dentry that is not hashed is not an entry of its
directory, or not any more.  `renamed` is set where NFS has given a removed name of a file in use
another name instead of removing it, which `wrapfs_unlink` asks about.

Of the attributes of the inodes only the link counts change: a file counts its names, a directory
its own two and those of the directories in it, and a removed directory has none.  Sizes and times
stay what they are.

What is mounted where does not change.

## Well-formed trees

`TreeInv` is the well-formedness of the tree that all calls keep: its clauses about the set `A`
say that the directory the mount starts from, `lroot`, is not below itself.  `A` is what is above
`lroot`.  It is a parameter, chosen once for a run, because no call of wrapfs changes anything
there; in this way a tree without loops above `lroot` stays one, and nothing needs to be said
about the rest of the tree.

## What the calls do

Each call is described once, by a `_cases` lemma: it has failed and changed nothing, or it has
succeeded and the tree is the given one.  The invariants are derived from those lemmas, so that
the many reasons for which a call may fail are looked at in one place only.
-/

namespace Wrapfs.Namespace

/-! ## The tree -/

/-- A lower inode.  Its type and super block never change. -/
structure LowerInode where
  ino : ℕ
  isDir : Bool
  isLink : Bool
  sb : ℕ
  deriving DecidableEq

/-- A lower dentry; `renamed` is `DCACHE_NFSFS_RENAMED`. -/
structure LowerDentry where
  name : String
  parent : ℕ
  inode : Option LowerInode
  hashed : Bool
  renamed : Bool

/-- The lower file system: its dentries, numbered in order, the next inode number, and
what is mounted on a dentry. -/
structure LowerTree where
  dentries : ℕ → LowerDentry
  next : ℕ
  nextIno : ℕ
  mounted : ℕ → Option LowerPath
  attr : LowerInode → Attr

namespace LowerTree

/-- Replace dentry `l`. -/
def set (t : LowerTree) (l : ℕ) (v : LowerDentry) : LowerTree :=
  { t with dentries := Function.update t.dentries l v }

@[simp] theorem set_next (t : LowerTree) (l : ℕ) (v : LowerDentry) :
    (t.set l v).next = t.next := rfl

@[simp] theorem set_mounted (t : LowerTree) (l : ℕ) (v : LowerDentry) :
    (t.set l v).mounted = t.mounted := rfl

@[simp] theorem set_self (t : LowerTree) (l : ℕ) (v : LowerDentry) :
    (t.set l v).dentries l = v := Function.update_self _ _ _

/-- The other dentries stay. -/
theorem set_of_ne (t : LowerTree) {l l' : ℕ} (hl : l' ≠ l) (v : LowerDentry) :
    (t.set l v).dentries l' = t.dentries l' := Function.update_of_ne hl _ _

/-- Change the link count of inode `x`. -/
def setNlink (t : LowerTree) (x : LowerInode) (f : ℕ → ℕ) : LowerTree :=
  { t with attr := Function.update t.attr x { t.attr x with nlink := f (t.attr x).nlink } }

/-- `inc_nlink` on a directory, which is passed by its inode pointer. -/
def incDir (t : LowerTree) (dir : Option LowerInode) : LowerTree :=
  match dir with
  | none => t
  | some x => t.setNlink x fun n => n + 1

/-- `drop_nlink` on a directory passed in the same way. -/
def dropDir (t : LowerTree) (dir : Option LowerInode) : LowerTree :=
  match dir with
  | none => t
  | some x => t.setNlink x fun n => n - 1

/-- The hashed dentry of a name in a directory. -/
def dLookup (t : LowerTree) (dir : ℕ) (name : String) : Option ℕ :=
  (List.range t.next).find? fun l =>
    (t.dentries l).hashed && decide ((t.dentries l).parent = dir) &&
      decide ((t.dentries l).name = name)

/-- What a lookup in the dcache finds: a hashed dentry of that name in that directory. -/
theorem dLookup_eq_some {t : LowerTree} {dir l : ℕ} {name : String}
    (h : t.dLookup dir name = some l) :
    (t.dentries l).hashed = true ∧ (t.dentries l).parent = dir ∧
      (t.dentries l).name = name := by
  have htest := List.find?_some h
  simpa [and_assoc] using htest

/-- The path walk finds a positive entry and crosses a mount point. -/
def walk (t : LowerTree) (dir : LowerPath) (name : String) : Except Errno LowerPath :=
  match t.dLookup dir.dentry name with
  | none => .error .ENOENT
  | some l =>
      if (t.dentries l).inode.isSome then .ok ((t.mounted l).getD ⟨l, dir.mnt⟩)
      else .error .ENOENT

/-- What a walk of one component finds, and on which mount. -/
theorem walk_eq_ok {t : LowerTree} {dir path : LowerPath} {name : String}
    (h : t.walk dir name = .ok path) :
    ∃ l, t.dLookup dir.dentry name = some l ∧ path = (t.mounted l).getD ⟨l, dir.mnt⟩ := by
  unfold walk at h
  cases hfind : t.dLookup dir.dentry name with
  | none =>
      rw [hfind] at h
      cases h
  | some l =>
      simp only [hfind] at h
      split at h
      · exact ⟨l, rfl, (Except.ok.inj h).symm⟩
      · cases h

/-- A walk that fails has not found a positive dentry. -/
theorem walk_eq_error {t : LowerTree} {dir : LowerPath} {name : String} {err : Errno}
    (h : t.walk dir name = .error err) {l : ℕ} (hl : t.dLookup dir.dentry name = some l) :
    (t.dentries l).inode = none := by
  unfold walk at h
  simp only [hl] at h
  split at h
  · cases h
  · rename_i hnone
    exact Option.not_isSome_iff_eq_none.mp hnone

/-- A lookup fails with `ENOENT` only when there is no such file. -/
def vfsPathLookup (t : LowerTree) (dir : LowerPath) (name : String) (fail : Option Errno) :
    Except Errno LowerPath × LowerTree :=
  match fail with
  | none => (t.walk dir name, t)
  | some e => (if e = .ENOENT then t.walk dir name else .error e, t)

/-- A path lookup walks, or fails as it is told. -/
theorem vfsPathLookup_cases (t : LowerTree) (dir : LowerPath) (name : String)
    (fail : Option Errno) :
    t.vfsPathLookup dir name fail = (t.walk dir name, t) ∨
      ∃ e, e ≠ .ENOENT ∧ t.vfsPathLookup dir name fail = (.error e, t) := by
  cases fail with
  | none => exact Or.inl rfl
  | some e =>
      by_cases he : e = .ENOENT
      · left
        simp [vfsPathLookup, he]
      · right
        exact ⟨e, he, by simp [vfsPathLookup, he]⟩

/-- `d_alloc` and `d_add` of a negative dentry. -/
def dAllocNegative (t : LowerTree) (dir : ℕ) (name : String) : ℕ × LowerTree :=
  (t.next, { t.set t.next ⟨name, dir, none, true, false⟩ with next := t.next + 1 })

/-- Make `l` a dentry of inode `x`. -/
def instantiate (t : LowerTree) (l : ℕ) (x : LowerInode) : LowerTree :=
  t.set l { t.dentries l with inode := some x }

/-- The new inode of the four calls that make a file. -/
def newInode (t : LowerTree) (kind : NewKind) (dir : LowerInode) : LowerInode :=
  ⟨t.nextIno, kind = .mkdir, kind = .symlink, dir.sb⟩

/-- The link counts after a file is made: a directory counts itself and is counted by
its parent. -/
def countNew (t : LowerTree) (kind : NewKind) (dir new : LowerInode) : LowerTree :=
  if kind = .mkdir then (t.setNlink new fun _ => 2).incDir (some dir)
  else t.setNlink new fun _ => 1

/-- `vfs_create`, `vfs_symlink`, `vfs_mkdir` and `vfs_mknod`. -/
def vfsNew (kind : NewKind) (t : LowerTree) (dir : Option LowerInode) (l : ℕ)
    (fail : Option Errno) : Option Errno × LowerTree :=
  match fail, dir, (t.dentries l).inode with
  | some e, _, _ => (some e, t)
  | none, _, some _ => (some .EEXIST, t)
  | none, none, none => (some .EACCES, t)
  | none, some x, none =>
      if x.isDir then
        (none, { t.instantiate l (t.newInode kind x) with nextIno := t.nextIno + 1 }.countNew
          kind x (t.newInode kind x))
      else (some .EACCES, t)

/-- `vfs_link`.  A file whose last name is gone gets no new one. -/
def vfsLink (t : LowerTree) (old : ℕ) (dir : Option LowerInode) (l : ℕ)
    (fail : Option Errno) : Option Errno × LowerTree :=
  match fail, (t.dentries old).inode, (t.dentries l).inode with
  | some e, _, _ => (some e, t)
  | none, none, _ => (some .ENOENT, t)
  | none, some _, some _ => (some .EEXIST, t)
  | none, some x, none =>
      if dir.map LowerInode.sb ≠ some x.sb then (some .EXDEV, t)
      else if x.isDir then (some .EPERM, t)
      else if (t.attr x).nlink = 0 then (some .ENOENT, t)
      else (none, (t.instantiate l x).setNlink x fun n => n + 1)

/-- Unhash a dentry. -/
def unhash (t : LowerTree) (l : ℕ) : LowerTree :=
  t.set l { t.dentries l with hashed := false }

/-- `vfs_unlink`.  The dentry is in use, so NFS would give it another name instead and
refuse to do so twice. -/
def vfsUnlink (t : LowerTree) (_dir : Option LowerInode) (l : ℕ) (fail : Option Errno)
    (silly : Option String) : Option Errno × LowerTree :=
  match fail, (t.dentries l).inode with
  | some e, _ => (some e, t)
  | none, none => (some .ENOENT, t)
  | none, some x =>
      if x.isDir then (some .EISDIR, t)
      else if (t.dentries l).renamed then (some .EBUSY, t)
      else
        match silly with
        | none => (none, (t.unhash l).setNlink x fun n => n - 1)
        | some name => (none, t.set l { t.dentries l with name := name, renamed := true })

/-- A directory with an entry. -/
def nonempty (t : LowerTree) (l : ℕ) : Bool :=
  (List.range t.next).any fun c =>
    (t.dentries c).hashed && (t.dentries c).inode.isSome && decide ((t.dentries c).parent = l)

/-- `vfs_rmdir`. -/
def vfsRmdir (t : LowerTree) (dir : Option LowerInode) (l : ℕ) (fail : Option Errno) :
    Option Errno × LowerTree :=
  match fail, (t.dentries l).inode with
  | some e, _ => (some e, t)
  | none, none => (some .ENOENT, t)
  | none, some x =>
      if !x.isDir then (some .ENOTDIR, t)
      else if t.nonempty l then (some .ENOTEMPTY, t)
      else (none, ((t.unhash l).setNlink x fun _ => 0).dropDir dir)

/-- `d_move`: the dentries swap name and parent, and the target is unhashed. -/
def dMove (t : LowerTree) (old new : ℕ) : LowerTree :=
  (t.set new { t.dentries new with
      name := (t.dentries old).name, parent := (t.dentries old).parent, hashed := false }).set
    old { t.dentries old with
      name := (t.dentries new).name, parent := (t.dentries new).parent, hashed := true }

/-- Whether a file may replace what is at the target of a rename. -/
def replaceable (t : LowerTree) (x : LowerInode) (new : ℕ) : Option Errno :=
  match (t.dentries new).inode with
  | none => none
  | some y =>
      if x.isDir then
        if y.isDir then if t.nonempty new then some .ENOTEMPTY else none
        else some .ENOTDIR
      else if y.isDir then some .EISDIR
      else none

/-- The link counts after file `x` has replaced `target`, if there was one: the target
loses a link, or all of them if it is a directory, and a directory that moves is
counted by its new parent, which a directory in its place has been so far. -/
def countRename (t : LowerTree) (x : LowerInode) (oldDir newDir target : Option LowerInode) :
    LowerTree :=
  match target with
  | none => if x.isDir then (t.incDir newDir).dropDir oldDir else t
  | some y =>
      if x.isDir then (t.setNlink y fun _ => 0).dropDir oldDir
      else t.setNlink y fun n => n - 1

/-- `vfs_rename`. -/
def vfsRename (t : LowerTree) (oldDir : Option LowerInode) (old : ℕ)
    (newDir : Option LowerInode) (new : ℕ) (fail : Option Errno) :
    Option Errno × LowerTree :=
  if (t.dentries old).inode = (t.dentries new).inode then (none, t)
  else
    match fail, (t.dentries old).inode with
    | some e, _ => (some e, t)
    | none, none => (some .ENOENT, t)
    | none, some x =>
        match t.replaceable x new with
        | some e => (some e, t)
        | none =>
            (none, (t.dMove old new).countRename x oldDir newDir (t.dentries new).inode)

/-- `d_ancestor(p₁, p)`: the child of `p₁` above or at `p`. -/
def dAncestor (t : LowerTree) (p₁ : ℕ) : ℕ → ℕ → Option ℕ
  | 0, _ => none
  | fuel + 1, p =>
      if (t.dentries p).parent = p then none
      else if (t.dentries p).parent = p₁ then some p
      else t.dAncestor p₁ fuel (t.dentries p).parent

/-- What `lock_rename(p₁, p₂)` returns. -/
def trap (t : LowerTree) (p₁ p₂ : ℕ) : Option ℕ :=
  match t.dAncestor p₂ t.next p₁ with
  | some p => some p
  | none => t.dAncestor p₁ t.next p₂

end LowerTree

/-- The tree as the lower file system of a mount on super block `super`. -/
def treeVfs (super : ℕ) : LowerVfs LowerTree LowerInode where
  super := super
  dInode t l := (t.dentries l).inode
  dParent t l := (t.dentries l).parent
  nfsRenamed t l := (t.dentries l).renamed
  iSb x := x.sb
  hasReadlink x := x.isLink
  iAttr t x := t.attr x
  vfsPathLookup := LowerTree.vfsPathLookup
  dLookup := LowerTree.dLookup
  dAllocNegative := LowerTree.dAllocNegative
  trap := LowerTree.trap
  vfsNew := LowerTree.vfsNew
  vfsLink := LowerTree.vfsLink
  vfsUnlink := LowerTree.vfsUnlink
  vfsRmdir := LowerTree.vfsRmdir
  vfsRename := LowerTree.vfsRename
  notifyChange t _ _ fail := (fail, t)

/-- The inode of the directory of the next definition. -/
def smallDir : LowerInode := ⟨3, true, false, 0⟩

/-- A file system with an empty directory `lower` in its root. -/
def smallTree : LowerTree where
  dentries l :=
    match l with
    | 0 => ⟨"/", 0, some ⟨2, true, false, 0⟩, false, false⟩
    | 1 => ⟨"lower", 0, some smallDir, true, false⟩
    | _ => ⟨"", 0, none, false, false⟩
  next := 2
  nextIno := 4
  mounted _ := none
  attr _ := ⟨0, 0, 0, 0, 0, 0, 0, 0, 0, 0, 0, 0⟩

/-! ## Well-formed trees -/

namespace LowerTree

/-- A positive dentry of a directory. -/
def IsDir (t : LowerTree) (l : ℕ) : Prop :=
  ∃ x, (t.dentries l).inode = some x ∧ x.isDir = true

/-- The well-formedness of the tree below the directory `lroot`. -/
structure TreeInv (super lroot : ℕ) (A : Set ℕ) (t : LowerTree) : Prop where
  fresh : ∀ l, t.next ≤ l → (t.dentries l).inode = none ∧ (t.dentries l).hashed = false
  /-- the parent of an entry is a directory -/
  dir : ∀ l x, (t.dentries l).hashed = true → (t.dentries l).inode = some x →
    t.IsDir (t.dentries l).parent
  /-- `A` contains what is above `lroot`, and not `lroot` -/
  above : ∀ l, l ∈ A ∨ l = lroot → (t.dentries l).hashed = true → (t.dentries l).parent ∈ A
  rootOut : lroot ∉ A
  inside : ∀ l, l ∈ A ∨ l = lroot → l < t.next
  /-- nothing of the super block `super` is mounted anywhere -/
  mounts : ∀ l q, t.mounted l = some q →
    ∃ x, (t.dentries q.dentry).inode = some x ∧ x.sb ≠ super

variable {super lroot : ℕ} {A : Set ℕ} {t : LowerTree}

/-- A positive dentry keeps its inode. -/
def KeepsInodes (t t' : LowerTree) : Prop :=
  ∀ l x, (t.dentries l).inode = some x → (t'.dentries l).inode = some x

/-- Replacing a dentry by one with the same inode. -/
theorem keepsInodes_set {l : ℕ} {v : LowerDentry}
    (hv : ∀ x, (t.dentries l).inode = some x → v.inode = some x) :
    t.KeepsInodes (t.set l v) := by
  intro l' x hx
  by_cases hl : l' = l
  · subst hl
    rw [set_self]
    exact hv x hx
  · rw [t.set_of_ne hl]
    exact hx

/-- A directory stays one. -/
theorem KeepsInodes.isDir {t' : LowerTree} (h : t.KeepsInodes t') {l : ℕ} (hl : t.IsDir l) :
    t'.IsDir l := by
  obtain ⟨x, hx, hdir⟩ := hl
  exact ⟨x, h l x hx, hdir⟩

/-- **Changing one dentry.**  A dentry below `lroot` may be changed in any way that
keeps its inode and leaves it without a parent that is not a directory. -/
theorem TreeInv.set (h : TreeInv super lroot A t) {l : ℕ} (hA : l ∉ A) (hroot : l ≠ lroot)
    (hlt : l < t.next) {v : LowerDentry}
    (hv : ∀ x, (t.dentries l).inode = some x → v.inode = some x)
    (hdir : ∀ x, v.hashed = true → v.inode = some x → t.IsDir v.parent) :
    TreeInv super lroot A (t.set l v) := by
  have hkeep : t.KeepsInodes (t.set l v) := keepsInodes_set hv
  refine ⟨fun l' hl' => ?_, fun l' x hhash hx => ?_, fun l' hl' hhash => ?_, h.rootOut,
    h.inside, fun l' q hq => ?_⟩
  · rw [t.set_of_ne (Nat.ne_of_gt (Nat.lt_of_lt_of_le hlt hl'))]
    exact h.fresh l' hl'
  · by_cases hl : l' = l
    · subst hl
      rw [set_self] at hhash hx ⊢
      exact hkeep.isDir (hdir x hhash hx)
    · rw [t.set_of_ne hl] at hhash hx ⊢
      exact hkeep.isDir (h.dir l' x hhash hx)
  · have hl : l' ≠ l := by
      rintro rfl
      exact hl'.elim hA hroot
    rw [t.set_of_ne hl] at hhash ⊢
    exact h.above l' hl' hhash
  · obtain ⟨x, hx, hsb⟩ := h.mounts l' q hq
    exact ⟨x, hkeep q.dentry x hx, hsb⟩

/-- **A rename.**  Dentry `l` takes the name and parent of `l'`. -/
theorem TreeInv.dMove (h : TreeInv super lroot A t) {l l' : ℕ} (hA : l ∉ A)
    (hroot : l ≠ lroot) (hlt : l < t.next) (hA' : l' ∉ A) (hroot' : l' ≠ lroot)
    (hlt' : l' < t.next) (hne : l ≠ l') (hdir : t.IsDir (t.dentries l').parent) :
    TreeInv super lroot A (t.dMove l l') ∧ t.KeepsInodes (t.dMove l l') := by
  set v : LowerDentry := { t.dentries l' with
    name := (t.dentries l).name, parent := (t.dentries l).parent, hashed := false }
  have hset : TreeInv super lroot A (t.set l' v) := h.set hA' hroot' hlt' (fun _ hx => hx) nofun
  have hkeep : t.KeepsInodes (t.set l' v) := keepsInodes_set fun _ hx => hx
  have hinode : ∀ x, ((t.set l' v).dentries l).inode = some x →
      (t.dentries l).inode = some x := by
    intro x hx
    rwa [t.set_of_ne hne] at hx
  refine ⟨hset.set hA hroot hlt hinode fun _ _ _ => hkeep.isDir hdir, fun l₁ x hx => ?_⟩
  exact keepsInodes_set (v := { t.dentries l with
    name := (t.dentries l').name, parent := (t.dentries l').parent, hashed := true })
    hinode l₁ x (hkeep l₁ x hx)

/-- A new negative dentry. -/
theorem TreeInv.alloc (h : TreeInv super lroot A t) (dir : ℕ) (name : String) :
    TreeInv super lroot A (t.dAllocNegative dir name).2 := by
  have hbump : TreeInv super lroot A { t with next := t.next + 1 } :=
    ⟨fun l hl => h.fresh l (Nat.le_of_succ_le hl), h.dir, h.above, h.rootOut,
      fun l hl => Nat.lt_succ_of_lt (h.inside l hl), h.mounts⟩
  refine hbump.set (l := t.next) (fun hA => ?_) (fun hroot => ?_) (Nat.lt_succ_self _)
    (fun x hx => ?_) fun x _ hx => ?_
  · exact Nat.lt_irrefl _ (h.inside t.next (Or.inl hA))
  · exact Nat.lt_irrefl _ (h.inside t.next (Or.inr hroot))
  · rw [show (t.dentries t.next).inode = none from (h.fresh t.next le_rfl).1] at hx
    cases hx
  · cases hx

/-- A hashed dentry has a number below the next one. -/
theorem TreeInv.lt (h : TreeInv super lroot A t) {l : ℕ}
    (hhash : (t.dentries l).hashed = true) : l < t.next := by
  by_contra hge
  rw [(h.fresh l (Nat.le_of_not_lt hge)).2] at hhash
  cases hhash

/-- A directory with an entry is not empty. -/
theorem nonempty_of_child (h : TreeInv super lroot A t) {l c : ℕ} {x : LowerInode}
    (hhash : (t.dentries c).hashed = true) (hx : (t.dentries c).inode = some x)
    (hparent : (t.dentries c).parent = l) : t.nonempty l = true :=
  List.any_eq_true.mpr
    ⟨c, List.mem_range.mpr (h.lt hhash), by simp [hhash, hx, hparent]⟩

/-! ## What the calls do -/

/-- The trees differ in attributes only. -/
def Recount (t t' : LowerTree) : Prop := ∃ a, t' = { t with attr := a }

theorem Recount.trans {t t' t'' : LowerTree} (h : t.Recount t') (h' : t'.Recount t'') :
    t.Recount t'' := by
  obtain ⟨a, rfl⟩ := h
  obtain ⟨a', rfl⟩ := h'
  exact ⟨a', rfl⟩

theorem recount_refl (t : LowerTree) : t.Recount t := ⟨t.attr, rfl⟩

theorem recount_setNlink (t : LowerTree) (x : LowerInode) (f : ℕ → ℕ) :
    t.Recount (t.setNlink x f) := ⟨_, rfl⟩

theorem recount_incDir (t : LowerTree) (dir : Option LowerInode) : t.Recount (t.incDir dir) := by
  cases dir with
  | none => exact t.recount_refl
  | some x => exact t.recount_setNlink x fun n => n + 1

theorem recount_dropDir (t : LowerTree) (dir : Option LowerInode) :
    t.Recount (t.dropDir dir) := by
  cases dir with
  | none => exact t.recount_refl
  | some x => exact t.recount_setNlink x fun n => n - 1

theorem recount_countNew (t : LowerTree) (kind : NewKind) (dir new : LowerInode) :
    t.Recount (t.countNew kind dir new) := by
  unfold countNew
  split
  · exact (t.recount_setNlink new _).trans (recount_incDir _ _)
  · exact t.recount_setNlink new _

theorem recount_countRename (t : LowerTree) (x : LowerInode)
    (oldDir newDir target : Option LowerInode) :
    t.Recount (t.countRename x oldDir newDir target) := by
  cases target with
  | none =>
      simp only [countRename]
      split
      · exact (t.recount_incDir newDir).trans (recount_dropDir _ _)
      · exact t.recount_refl
  | some y =>
      simp only [countRename]
      split
      · exact (t.recount_setNlink y _).trans (recount_dropDir _ _)
      · exact t.recount_setNlink y _

/-- The well-formedness does not depend on the attributes. -/
theorem TreeInv.recount {t' : LowerTree} (h : TreeInv super lroot A t) (ht : t.Recount t') :
    TreeInv super lroot A t' := by
  obtain ⟨a, rfl⟩ := ht
  exact ⟨h.fresh, h.dir, h.above, h.rootOut, h.inside, h.mounts⟩

/-- A negative dentry becomes one of an inode of the super block of the directory. -/
def Creation (t : LowerTree) (dir : Option LowerInode) (l : ℕ) (t' : LowerTree) : Prop :=
  ∃ x y n, dir = some x ∧ y.sb = x.sb ∧ (t.dentries l).inode = none ∧
    Recount { t.instantiate l y with nextIno := n } t'

/-- **What making a file does.** -/
theorem vfsNew_cases (kind : NewKind) (t : LowerTree) (dir : Option LowerInode) (l : ℕ)
    (fail : Option Errno) :
    (∃ err, t.vfsNew kind dir l fail = (some err, t)) ∨
      ∃ x t', dir = some x ∧ t' = { t.instantiate l (t.newInode kind x) with
          nextIno := t.nextIno + 1 }.countNew kind x (t.newInode kind x) ∧
        t.Creation dir l t' ∧ t.vfsNew kind dir l fail = (none, t') := by
  unfold vfsNew
  split
  · exact Or.inl ⟨_, rfl⟩
  · exact Or.inl ⟨_, rfl⟩
  · exact Or.inl ⟨_, rfl⟩
  · rename_i x hneg
    split
    · exact Or.inr ⟨x, _, rfl, rfl, ⟨x, t.newInode kind x, t.nextIno + 1, rfl, rfl, hneg,
        recount_countNew _ _ _ _⟩, rfl⟩
    · exact Or.inl ⟨_, rfl⟩

/-- **What linking a file does.** -/
theorem vfsLink_cases (t : LowerTree) (old : ℕ) (dir : Option LowerInode) (l : ℕ)
    (fail : Option Errno) :
    (∃ err, t.vfsLink old dir l fail = (some err, t)) ∨
      ∃ x t', (t.dentries old).inode = some x ∧
        t' = (t.instantiate l x).setNlink x (fun n => n + 1) ∧
        t.Creation dir l t' ∧ t.vfsLink old dir l fail = (none, t') := by
  unfold vfsLink
  split
  · exact Or.inl ⟨_, rfl⟩
  · exact Or.inl ⟨_, rfl⟩
  · exact Or.inl ⟨_, rfl⟩
  · rename_i y hy hneg
    split
    · exact Or.inl ⟨_, rfl⟩
    · rename_i hsb
      obtain ⟨x, hx, hsb⟩ := Option.map_eq_some_iff.mp (not_not.mp hsb)
      split
      · exact Or.inl ⟨_, rfl⟩
      · split
        · exact Or.inl ⟨_, rfl⟩
        · exact Or.inr ⟨y, _, hy, rfl,
            ⟨x, y, t.nextIno, hx, hsb.symm, hneg, recount_setNlink _ _ _⟩, rfl⟩

/-- A dentry loses its name, or is left as it is. -/
def Removal (t : LowerTree) (l : ℕ) (t' : LowerTree) : Prop :=
  ∃ v : LowerDentry, v.inode = (t.dentries l).inode ∧ v.parent = (t.dentries l).parent ∧
    (t.set l v).Recount t'

theorem removal_refl (t : LowerTree) (l : ℕ) : t.Removal l t :=
  ⟨t.dentries l, rfl, rfl, t.attr, by simp [set]⟩

theorem removal_unhash (t : LowerTree) (l : ℕ) {t' : LowerTree} (ht : (t.unhash l).Recount t') :
    t.Removal l t' :=
  ⟨{ t.dentries l with hashed := false }, rfl, rfl, ht⟩

/-- **What removing a name does.** -/
theorem vfsUnlink_cases (t : LowerTree) (dir : Option LowerInode) (l : ℕ)
    (fail : Option Errno) (silly : Option String) :
    (∃ err, t.vfsUnlink dir l fail silly = (some err, t)) ∨
      ∃ x t', (t.dentries l).inode = some x ∧ (t' = (t.unhash l).setNlink x (fun n => n - 1) ∨
          ∃ name, t' = t.set l { t.dentries l with name := name, renamed := true }) ∧
        t.Removal l t' ∧ t.vfsUnlink dir l fail silly = (none, t') := by
  unfold vfsUnlink
  split
  · exact Or.inl ⟨_, rfl⟩
  · exact Or.inl ⟨_, rfl⟩
  · rename_i x hx
    split
    · exact Or.inl ⟨_, rfl⟩
    · split
      · exact Or.inl ⟨_, rfl⟩
      · split
        · exact Or.inr ⟨x, _, hx, Or.inl rfl, t.removal_unhash l (recount_setNlink _ _ _), rfl⟩
        · rename_i name
          exact Or.inr ⟨x, _, hx, Or.inr ⟨name, rfl⟩,
            ⟨{ t.dentries l with name := name, renamed := true }, rfl, rfl, recount_refl _⟩, rfl⟩

/-- **What removing a directory does.** -/
theorem vfsRmdir_cases (t : LowerTree) (dir : Option LowerInode) (l : ℕ)
    (fail : Option Errno) :
    (∃ err, t.vfsRmdir dir l fail = (some err, t)) ∨
      ∃ x t', (t.dentries l).inode = some x ∧
        t' = ((t.unhash l).setNlink x fun _ => 0).dropDir dir ∧
        t.Removal l t' ∧ t.nonempty l = false ∧ t.vfsRmdir dir l fail = (none, t') := by
  unfold vfsRmdir
  split
  · exact Or.inl ⟨_, rfl⟩
  · exact Or.inl ⟨_, rfl⟩
  · rename_i x hx
    split
    · exact Or.inl ⟨_, rfl⟩
    · split
      · exact Or.inl ⟨_, rfl⟩
      · rename_i hempty
        exact Or.inr ⟨x, _, hx, rfl, t.removal_unhash l
          ((recount_setNlink _ _ _).trans (recount_dropDir _ _)),
          Bool.eq_false_of_not_eq_true hempty, rfl⟩

/-- The target of a rename that succeeds is not a directory with entries. -/
theorem nonempty_of_replaceable {t : LowerTree} {x y : LowerInode} {new : ℕ}
    (h : t.replaceable x new = none) (hy : (t.dentries new).inode = some y)
    (hdir : y.isDir = true) : t.nonempty new = false := by
  unfold replaceable at h
  simp only [hy, hdir, if_true] at h
  split at h
  · split at h
    · cases h
    · rename_i hempty
      exact Bool.eq_false_of_not_eq_true hempty
  · cases h

/-- **What a rename does.** -/
theorem vfsRename_cases (t : LowerTree) (oldDir : Option LowerInode) (old : ℕ)
    (newDir : Option LowerInode) (new : ℕ) (fail : Option Errno) :
    (∃ err, t.vfsRename oldDir old newDir new fail = (some err, t)) ∨
      (t.dentries old).inode = (t.dentries new).inode ∧
        t.vfsRename oldDir old newDir new fail = (none, t) ∨
      ∃ x t', (t.dentries old).inode = some x ∧ (t.dentries new).inode ≠ some x ∧
        t.replaceable x new = none ∧
        t' = (t.dMove old new).countRename x oldDir newDir (t.dentries new).inode ∧
        t.vfsRename oldDir old newDir new fail = (none, t') := by
  unfold vfsRename
  split
  · rename_i hsame
    exact Or.inr (Or.inl ⟨hsame, rfl⟩)
  · rename_i hne
    split
    · exact Or.inl ⟨_, rfl⟩
    · exact Or.inl ⟨_, rfl⟩
    · rename_i x hx
      split
      · exact Or.inl ⟨_, rfl⟩
      · rename_i hrep
        exact Or.inr (Or.inr ⟨x, _, hx, fun hsame => hne (hx.trans hsame.symm), hrep, rfl, rfl⟩)

end LowerTree

end Wrapfs.Namespace
