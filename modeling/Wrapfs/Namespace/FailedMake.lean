import Wrapfs.Namespace.Rules
import Wrapfs.Namespace.LowerTree
import Wrapfs.Namespace.References

/-!
# Making a file, when it fails

`wrapfs_create`, `wrapfs_symlink`, `wrapfs_mkdir`, `wrapfs_mknod` and `wrapfs_link` first change
the lower directory and then look for an upper inode for what is there now.  The second step has
failures of its own: the lower inode may be of another file system, and `wrapfs_iget` may get no
inode, or no reference to the lower one.  None of the five takes the first step back then, so the
caller is told that nothing was made while the lower directory has the entry.

## What is asked

`FailsCleanly` is what a caller may expect: if the operation returns an error, the lower names and
link counts are as they were (`SameNames`).  Times and sizes are not asked for.

## When it is met

`failsCleanly_iff` says exactly when it holds: write access to the lower mount is refused, or the
lower call fails, or what it has made can be given an upper inode (`Interposable`).  An upper
inode that exists already will do, so want of memory does no harm to a `link` whose file has its
inode in the hash.

Of the lower file system only two things are assumed, for each call (`MakeLaws`): it changes
nothing when it fails, and it succeeds on negative dentries only.  The second is needed for the
converse: a lower call that has succeeded has made the dentry positive or it has not, and if it
has, the names differ.  The tree of `Wrapfs.Namespace.LowerTree` satisfies both
(`makeLaws_treeVfs`).

The three operations with a common body share a lemma, and `wrapfs_create` and `wrapfs_link` have
theirs; all rest on `failsCleanly_underLockedParent_iff`, by which only the part under the lock
matters.
-/

namespace Wrapfs.Namespace

open Ledger

variable {σ ι : Type} [DecidableEq ι] (V : LowerVfs σ ι)

/-- The operations that make a directory entry; `link` with the dentry linked to. -/
inductive MakeOp where
  | create (nd : Option LookupFlags)
  | symlink
  | mkdir
  | mknod
  | link (old : ℕ)

/-- The operation on the dentry `d` of the directory `dir`. -/
def runMake (dir d : ℕ) (c : NewCalls) : MakeOp → NsOp σ ι (Option Errno)
  | .create nd => wrapfsCreate V dir d nd c
  | .symlink => wrapfsSymlink V dir d c
  | .mkdir => wrapfsMkdir V dir d c
  | .mknod => wrapfsMknod V dir d c
  | .link old => wrapfsLink V old dir d c

/-- The two lower file systems have the same entries and link counts. -/
structure SameNames (low low' : σ) : Prop where
  inode : ∀ l, V.dInode low' l = V.dInode low l
  parent : ∀ l, V.dParent low' l = V.dParent low l
  lookup : ∀ dir name, V.dLookup low' dir name = V.dLookup low dir name
  nlink : ∀ x, (V.iAttr low' x).nlink = (V.iAttr low x).nlink

omit [DecidableEq ι] in
/-- No change. -/
theorem sameNames_refl (low : σ) : SameNames V low low :=
  ⟨fun _ => rfl, fun _ => rfl, fun _ _ => rfl, fun _ => rfl⟩

/-- What is assumed of the lower calls. -/
structure MakeLaws : Prop where
  new_failed : ∀ kind low dir l fail, (V.vfsNew kind low dir l fail).1 ≠ none →
    (V.vfsNew kind low dir l fail).2 = low
  new_negative : ∀ kind low dir l fail, (V.vfsNew kind low dir l fail).1 = none →
    V.dInode low l = none
  link_failed : ∀ low old dir l fail, (V.vfsLink low old dir l fail).1 ≠ none →
    (V.vfsLink low old dir l fail).2 = low
  link_negative : ∀ low old dir l fail, (V.vfsLink low old dir l fail).1 = none →
    V.dInode low l = none

/-- An operation that returns an error leaves the lower entries and link counts as they
were. -/
def FailsCleanly (op : NsOp σ ι (Option Errno)) (s : Ns σ ι) : Prop :=
  Yields op s fun err s' => err ≠ none → SameNames V s.low s'.low

/-- The lower call that makes the file of a dentry with the lower path `path`. -/
def lowerNew (s : Ns σ ι) (path : LowerPath) (c : NewCalls) (kind : NewKind) :
    Option Errno × σ :=
  V.vfsNew kind s.low (V.dInode s.low (V.dParent s.low path.dentry)) path.dentry c.vfs

/-- The lower call that links a file. -/
def lowerLink (s : Ns σ ι) (path : LowerPath) (c : NewCalls) (oldPath : LowerPath) :
    Option Errno × σ :=
  V.vfsLink s.low oldPath.dentry (V.dInode s.low (V.dParent s.low path.dentry)) path.dentry c.vfs

/-- The lower call of an operation. -/
def lowerMake (s : Ns σ ι) (path : LowerPath) (c : NewCalls) : MakeOp → Option Errno × σ
  | .create _ => lowerNew V s path c .create
  | .symlink => lowerNew V s path c .symlink
  | .mkdir => lowerNew V s path c .mkdir
  | .mknod => lowerNew V s path c .mknod
  | .link old =>
      match s.stored old with
      | none => (some .ENOENT, s.low)
      | some oldPath => lowerLink V s path c oldPath

/-- What the operation follows is there: a `create` has its `nd`, and the dentry linked to has an
inode and a lower path. -/
def MakeOp.Ready (s : Ns σ ι) : MakeOp → Prop
  | .create nd => ∃ flags, nd = some flags
  | .link old => (∃ e u, s.dentries old = some e ∧ e.inode = some u) ∧
      ∃ oldPath, s.stored old = some oldPath
  | _ => True

/-- `wrapfs_interpose` would succeed on the lower dentry `l`: its inode, if it has one, is
on the lower super block, and has an upper inode or gets one. -/
def Interposable (hash : InodeHash ι) (low : σ) (l : ℕ) (c : IgetCalls) : Prop :=
  ∀ x, V.dInode low l = some x → V.iSb x = V.super ∧
    (findInode hash x = none → c.alloc = true ∧ c.igrab = true)

variable {V} {s : Ns σ ι} {d : ℕ} {path : LowerPath}

/-- For a positive dentry: `wrapfs_iget` gives an inode. -/
theorem interposable_iff {hash : InodeHash ι} {low : σ} {l : ℕ} {x : ι}
    (hx : V.dInode low l = some x) (c : IgetCalls) :
    Interposable V hash low l c ↔
      V.iSb x = V.super ∧ ∃ u, (wrapfsIget hash x c).inode = .ok u := by
  rw [wrapfsIget_ok_iff, Interposable]
  simp [hx]

/-- From the interposition on.  Whatever follows its success, the operation fails cleanly
from here exactly when the interposition does not fail: the lower dentry was negative and,
if it has an inode to interpose on, is not any more. -/
theorem failsCleanly_interpose_iff {low : σ} {e : UpperDentry} (hd : s.dentries d = some e)
    (hneg : V.dInode low path.dentry = none) (c : IgetCalls) {rest : NsOp σ ι (Option Errno)}
    (hrest : ∀ s', Yields rest s' fun err _ => err = none) :
    (Yields (do
        let err ← wrapfsInterpose V d path c
        match err with
        | some err => pure (some err)
        | none => rest) s fun err s' => err ≠ none → SameNames V low s'.low) ↔
      Interposable V s.hash s.low path.dentry c := by
  rw [yields_bind]
  cases hx : V.dInode s.low path.dentry with
  | none =>
      simp only [wrapfsInterpose, yields_bind, yields_look, yields_deref, hx]
      refine iff_of_true (fun x h => ?_) fun x h => ?_
      · cases h
      · rw [hx] at h
        cases h
  | some x =>
      have hchanged : ¬ SameNames V low s.low := by
        intro hsame
        have hinode := hsame.inode path.dentry
        rw [hx, hneg] at hinode
        cases hinode
      rw [interposable_iff hx, yields_wrapfsInterpose_iff V hd hx]
      by_cases hsb : V.iSb x ≠ V.super
      · rw [if_pos hsb]
        simp only [yields_pure]
        refine iff_of_false (fun h => hchanged (h (Option.some_ne_none _))) ?_
        exact fun h => hsb h.1
      · rw [if_neg hsb]
        cases hinode : (wrapfsIget s.hash x c).inode with
        | error err =>
            simp only [yields_pure]
            refine iff_of_false (fun h => hchanged (h (Option.some_ne_none _))) ?_
            rintro ⟨-, u, hu⟩
            cases hu
        | ok u =>
            refine iff_of_true ?_ ⟨not_not.mp hsb, u, rfl⟩
            exact (hrest _).mono fun err s' herr h => absurd herr h

omit [DecidableEq ι] in
/-- The lower call has returned `ret` and left `low`.  If it has failed, nothing has
changed. -/
theorem failsCleanly_match_iff {ret : Option Errno} {low : σ} (hfailed : ret ≠ none → low = s.low)
    {rest : NsOp σ ι (Option Errno)} {Q : Prop}
    (hrest : ret = none → ((Yields rest (s.withCore (s.setLow low)) fun err s' => err ≠ none →
      SameNames V s.low s'.low) ↔ Q)) :
    (Yields (match ret with
        | some err => pure (some err)
        | none => rest) (s.withCore (s.setLow low)) fun err s' => err ≠ none →
          SameNames V s.low s'.low) ↔ ret ≠ none ∨ Q := by
  cases ret with
  | none =>
      rw [or_iff_right (not_not.mpr rfl)]
      exact hrest rfl
  | some err =>
      have hlow : low = s.low := hfailed (Option.some_ne_none err)
      subst hlow
      simp only [yields_pure]
      exact iff_of_true (fun _ => sameNames_refl V s.low) (Or.inl (Option.some_ne_none err))

/-- Under `mnt_want_write`: making a file. -/
theorem failsCleanly_newUnderWrite_iff (hV : MakeLaws V) {e : UpperDentry}
    (hd : s.dentries d = some e) (kind : NewKind) (finish : NsOp σ ι Unit) (dir parent : ℕ)
    (c : NewCalls) :
    FailsCleanly V (newUnderWrite V kind finish dir d path parent c) s ↔
      (V.vfsNew kind s.low (V.dInode s.low parent) path.dentry c.vfs).1 ≠ none ∨
        Interposable V s.hash (V.vfsNew kind s.low (V.dInode s.low parent) path.dentry c.vfs).2
          path.dentry c.iget := by
  rw [FailsCleanly, newUnderWrite, yields_bind, yields_look, yields_bind, yields_changeCore]
  refine failsCleanly_match_iff (hV.new_failed _ _ _ _ _) fun hcall => ?_
  have hneg := hV.new_negative kind s.low (V.dInode s.low parent) path.dentry c.vfs hcall
  generalize (V.vfsNew kind s.low (V.dInode s.low parent) path.dentry c.vfs).2 = low
  refine failsCleanly_interpose_iff (s := s.withCore (s.setLow low)) hd hneg c.iget ?_
  exact fun s' => by simp

/-- Under `mnt_want_write`: linking a file.  A link that leaves its dentry negative is not
interposed on. -/
theorem failsCleanly_linkUnderWrite_iff (hV : MakeLaws V) {e : UpperDentry}
    (hd : s.dentries d = some e) (uOld dir parent fileSizeSave : ℕ) (oldPath : LowerPath)
    (c : NewCalls) :
    FailsCleanly V (linkUnderWrite V uOld dir d oldPath path parent fileSizeSave c) s ↔
      (V.vfsLink s.low oldPath.dentry (V.dInode s.low parent) path.dentry c.vfs).1 ≠ none ∨
        Interposable V s.hash
          (V.vfsLink s.low oldPath.dentry (V.dInode s.low parent) path.dentry c.vfs).2
          path.dentry c.iget := by
  rw [FailsCleanly, linkUnderWrite, yields_bind, yields_look, yields_bind, yields_changeCore]
  refine failsCleanly_match_iff (hV.link_failed _ _ _ _ _) fun hcall => ?_
  have hneg := hV.link_negative s.low oldPath.dentry (V.dInode s.low parent) path.dentry
    c.vfs hcall
  generalize (V.vfsLink s.low oldPath.dentry (V.dInode s.low parent) path.dentry c.vfs).2 = low
  cases hx : V.dInode low path.dentry with
  | none =>
      simp only [Option.isNone_none, if_true, yields_pure]
      refine iff_of_true (fun h => absurd rfl h) fun x h => ?_
      rw [hx] at h
      cases h
  | some x =>
      simp only [Option.isNone_some, Bool.false_eq_true, if_false]
      refine failsCleanly_interpose_iff (s := s.withCore (s.setLow low)) hd hneg c.iget ?_
      exact fun s' => by simp

omit [DecidableEq ι] in
/-- An operation that asks for write access first. -/
theorem failsCleanly_withWrite_iff {mnt : ℕ} {wantWrite : Option Errno}
    {body : NsOp σ ι (Option Errno)} {Q : Prop} (hbody : FailsCleanly V body s ↔ Q) :
    (Yields (withWrite mnt wantWrite body) s fun err s' => err ≠ none →
        SameNames V s.low s'.low) ↔ wantWrite ≠ none ∨ Q := by
  rw [yields_withWrite]
  cases wantWrite with
  | some err =>
      refine iff_of_true ⟨fun _ _ _ => sameNames_refl V s.low, fun h => ?_⟩
        (Or.inl (Option.some_ne_none err))
      cases h
  | none =>
      rw [or_iff_right (not_not.mpr rfl), ← hbody]
      refine ⟨fun h => h.2 rfl, fun h => ⟨fun err herr => ?_, fun _ => h⟩⟩
      cases herr

omit [DecidableEq ι] in
/-- What is around the lower call changes nothing below. -/
theorem failsCleanly_underLockedParent_iff (hpath : s.stored d = some path)
    {wantWrite : Option Errno} {body : LowerPath → ℕ → NsOp σ ι (Option Errno)} {Q : Prop}
    (hbody : FailsCleanly V (body path (V.dParent s.low path.dentry)) s ↔ Q) :
    FailsCleanly V (underLockedParent V d wantWrite body) s ↔ wantWrite ≠ none ∨ Q := by
  simp only [FailsCleanly, underLockedParent, yields_bind, yields_wrapfsGetLowerPath, hpath,
    Option.some.injEq, forall_eq', yields_lockParent, yields_unlockDir,
    yields_wrapfsPutLowerPath, yields_pure]
  exact failsCleanly_withWrite_iff hbody

/-- `wrapfs_symlink`, `wrapfs_mkdir` and `wrapfs_mknod`. -/
theorem failsCleanly_wrapfsNew_iff (hV : MakeLaws V) (hpath : s.stored d = some path)
    (kind : NewKind) (finish : NsOp σ ι Unit) (dir : ℕ) (c : NewCalls) :
    FailsCleanly V (wrapfsNew V kind finish dir d c) s ↔
      c.wantWrite ≠ none ∨ (lowerNew V s path c kind).1 ≠ none ∨
        Interposable V s.hash (lowerNew V s path c kind).2 path.dentry c.iget := by
  obtain ⟨e, hd, -⟩ := Core.stored_eq_some.mp hpath
  exact failsCleanly_underLockedParent_iff hpath
    (failsCleanly_newUnderWrite_iff hV hd kind finish dir _ c)

/-- `wrapfs_create`, with its `nd`. -/
theorem failsCleanly_wrapfsCreate_iff (hV : MakeLaws V) (hpath : s.stored d = some path)
    (flags : LookupFlags) (dir : ℕ) (c : NewCalls) :
    FailsCleanly V (wrapfsCreate V dir d (some flags) c) s ↔
      c.wantWrite ≠ none ∨ (lowerNew V s path c .create).1 ≠ none ∨
        Interposable V s.hash (lowerNew V s path c .create).2 path.dentry c.iget := by
  obtain ⟨e, hd, -⟩ := Core.stored_eq_some.mp hpath
  refine failsCleanly_underLockedParent_iff hpath (Iff.trans ?_
    (failsCleanly_newUnderWrite_iff hV hd .create (pure ()) dir _ c))
  simp only [FailsCleanly, yields_bind, yields_deref, Option.some.injEq, forall_eq']

/-- `wrapfs_link`. -/
theorem failsCleanly_wrapfsLink_iff (hV : MakeLaws V) (hpath : s.stored d = some path)
    {old u : ℕ} {eOld : UpperDentry} {oldPath : LowerPath} (hold : s.dentries old = some eOld)
    (hu : eOld.inode = some u) (hpathOld : s.stored old = some oldPath) (dir : ℕ)
    (c : NewCalls) :
    FailsCleanly V (wrapfsLink V old dir d c) s ↔
      c.wantWrite ≠ none ∨ (lowerLink V s path c oldPath).1 ≠ none ∨
        Interposable V s.hash (lowerLink V s path c oldPath).2 path.dentry c.iget := by
  obtain ⟨e, hd, -⟩ := Core.stored_eq_some.mp hpath
  simp only [FailsCleanly, wrapfsLink, yields_bind, yields_dentryAt, hold, Option.some.injEq,
    forall_eq', yields_deref, hu, yields_look, yields_wrapfsGetLowerPath, hpathOld, hpath,
    yields_lockParent, yields_unlockDir, yields_wrapfsPutLowerPath, yields_pure]
  exact failsCleanly_withWrite_iff
    (failsCleanly_linkUnderWrite_iff hV hd u dir _ _ oldPath c)

/-- **When a failed creation creates nothing.**  Each of the five operations, on a dentry
with a lower path and with every outcome of its calls, leaves the lower entries and link
counts alone whenever it returns an error, if and only if `mnt_want_write` fails, or the
lower call fails, or the interposition on what the lower call has made succeeds. -/
theorem failsCleanly_iff (hV : MakeLaws V) (hpath : s.stored d = some path) {op : MakeOp}
    (hop : op.Ready s) (dir : ℕ) (c : NewCalls) :
    FailsCleanly V (runMake V dir d c op) s ↔
      c.wantWrite ≠ none ∨ (lowerMake V s path c op).1 ≠ none ∨
        Interposable V s.hash (lowerMake V s path c op).2 path.dentry c.iget := by
  cases op with
  | create nd =>
      obtain ⟨flags, rfl⟩ := hop
      exact failsCleanly_wrapfsCreate_iff hV hpath flags dir c
  | symlink => exact failsCleanly_wrapfsNew_iff hV hpath .symlink _ dir c
  | mkdir => exact failsCleanly_wrapfsNew_iff hV hpath .mkdir _ dir c
  | mknod => exact failsCleanly_wrapfsNew_iff hV hpath .mknod _ dir c
  | link old =>
      obtain ⟨⟨eOld, u, hold, hu⟩, oldPath, hpathOld⟩ := hop
      have hcall : lowerMake V s path c (.link old) = lowerLink V s path c oldPath := by
        simp only [lowerMake, hpathOld]
      rw [hcall]
      exact failsCleanly_wrapfsLink_iff hV hpath hold hu hpathOld dir c

/-! ## On a tree -/

/-- The tree obeys the laws. -/
theorem makeLaws_treeVfs (super : ℕ) : MakeLaws (treeVfs super) where
  new_failed kind low dir l fail h := by
    rcases LowerTree.vfsNew_cases kind low dir l fail with ⟨err, hcall⟩ | ⟨_, _, -, -, -, hcall⟩
    · exact congrArg Prod.snd hcall
    · exact absurd (congrArg Prod.fst hcall) h
  new_negative kind low dir l fail h := by
    rcases LowerTree.vfsNew_cases kind low dir l fail with
      ⟨err, hcall⟩ | ⟨_, _, -, -, ⟨_, _, _, -, -, hneg, -⟩, -⟩
    · exact absurd (h.symm.trans (congrArg Prod.fst hcall)) (Option.some_ne_none err).symm
    · exact hneg
  link_failed low old dir l fail h := by
    rcases LowerTree.vfsLink_cases low old dir l fail with ⟨err, hcall⟩ | ⟨_, _, -, -, -, hcall⟩
    · exact congrArg Prod.snd hcall
    · exact absurd (congrArg Prod.fst hcall) h
  link_negative low old dir l fail h := by
    rcases LowerTree.vfsLink_cases low old dir l fail with
      ⟨err, hcall⟩ | ⟨_, _, -, -, ⟨_, _, _, -, -, hneg, -⟩, -⟩
    · exact absurd (h.symm.trans (congrArg Prod.fst hcall)) (Option.some_ne_none err).symm
    · exact hneg

/-- The mount of `smallTree` with the dentry 1 of a name `f` that has been looked up in its
root and not found. -/
def readyNs : Ns LowerTree LowerInode :=
  let tree := (smallTree.dAllocNegative 1 "f").2
  let s := mountedNs tree ⟨1, 0⟩ smallDir fun _ => tree.attr smallDir
  { s with
    dentries := Function.update s.dentries 1 (some ⟨"f", 0, none, true, true, some (some ⟨2, 0⟩)⟩)
    nextDentry := 2 }

/-- `failsCleanly_iff` for a `create` whose lower call finds no space: the error is returned, and
the lower names and link counts are as they were. -/
theorem failsCleanly_iff_noSpace :
    ∃ s' events,
      wrapfsCreate (treeVfs 0) 0 1 (some createFlags) ⟨none, some .ENOSPC, ⟨true, true⟩⟩ readyNs =
        .done (some .ENOSPC) s' events ∧
      SameNames (treeVfs 0) readyNs.low s'.low := by
  have hpath : readyNs.stored 1 = some ⟨2, 0⟩ := rfl
  have hop : MakeOp.Ready readyNs (.create (some createFlags)) := ⟨createFlags, rfl⟩
  have hclean : FailsCleanly (treeVfs 0)
      (wrapfsCreate (treeVfs 0) 0 1 (some createFlags) ⟨none, some .ENOSPC, ⟨true, true⟩⟩) readyNs :=
    (failsCleanly_iff (makeLaws_treeVfs 0) hpath hop 0 ⟨none, some .ENOSPC, ⟨true, true⟩⟩).mpr
      (Or.inr (Or.inl (Option.some_ne_none _)))
  exact ⟨_, _, rfl, hclean _ _ _ rfl (Option.some_ne_none _)⟩

/-- A `create` for which no upper inode can be allocated returns an error, and the lower
directory has the entry. -/
theorem create_left_behind :
    ¬ FailsCleanly (treeVfs 0)
      (wrapfsCreate (treeVfs 0) 0 1 (some createFlags) ⟨none, none, ⟨false, true⟩⟩) readyNs := by
  intro h
  have hsame := h _ _ _ rfl (Option.some_ne_none _)
  have hinode : some (⟨4, false, false, 0⟩ : LowerInode) = none := hsame.inode 2
  cases hinode

end Wrapfs.Namespace
