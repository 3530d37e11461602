import Mathlib
import Wrapfs.Namespace.References

/-!
# The steps of the directory operations

All that the directory operations do to the dentries, the inode hash and the lower file system is
done in ten kinds of steps, `CoreStep`, each with the condition the code has checked or arranged
before it takes it.  The conditions are what the module is about:

* an inode enters the hash (`iget`) only after `wrapfs_interpose` has compared the super block of
  the lower inode with the one wrapfs is mounted on;
* a dentry gets its `d_op` (`dOp`) only when it has private data, because `wrapfs_lookup` calls
  `new_dentry_private_data` first and returns if it fails;
* a lower path is stored (`path`) only in private data that is there.

`stepwise_callOp` says that there are no other steps, for any call with any answers of the
functions underneath.  An invariant of a mounted super block is then proved step by step, ten
short cases, without looking at an operation again (`callStep_invariant`); a change to one
operation is a change to one `stepwise` lemma here.

## What follows

`upper_inodes_confined` is the first such invariant: wrapfs never leaves the file system it is
mounted on, whatever is mounted below it and whatever others do to the lower tree meanwhile.  Only
the `iget` step has anything to show, and what it shows it with is the check of
`wrapfs_interpose`.

`CoreStep.releasable` is the second: a dentry whose `d_release` will be called has the private
data that `wrapfs_d_release` follows.  `Wrapfs.File.OpenFiles` and `Wrapfs.Namespace.LifeCycle`
need it to show that the end of a dentry, and the unmount with all of them, come back.

## What is not a step

Attributes are not part of the core, so quiet code takes no step at all (`Quiet.stepwise`).  The
end of a dentry is one step though `wrapfs_d_release` makes three stores: between them the dentry
is in nobody's reach, and the invariants do not hold of a dentry whose private data has just been
freed.
-/

namespace Wrapfs.Namespace

open Ledger Runs

variable {σ ι : Type}

section Steps

variable (V : LowerVfs σ ι) [DecidableEq ι]

/-- What an operation does to a super block, in the smallest pieces. -/
inductive CoreStep : Core σ ι → Core σ ι → Prop
  /-- a call of the lower file system, or a change by others -/
  | low (k : Core σ ι) (low : σ) : CoreStep k (k.setLow low)
  /-- `wrapfs_iget` -/
  | iget (k : Core σ ι) {lower : ι} (hsb : V.iSb lower = V.super) (c : IgetCalls) :
      CoreStep k (k.setHash (wrapfsIget k.hash lower c).hash)
  | evict (k : Core σ ι) (u : ℕ) : CoreStep k (k.setHash (k.hash.set u none))
  /-- `d_alloc` -/
  | alloc (k : Core σ ι) (name : String) (parent : ℕ) :
      CoreStep k { k.setDentry k.nextDentry (some ⟨name, parent, none, false, false, none⟩) with
        nextDentry := k.nextDentry + 1 }
  /-- `new_dentry_private_data` -/
  | data {k : Core σ ι} {d : ℕ} {e : UpperDentry} (hd : k.dentries d = some e) :
      CoreStep k (k.setDentry d (some { e with fsdata := some none }))
  /-- `d_set_d_op` -/
  | dOp {k : Core σ ι} {d : ℕ} {e : UpperDentry} (hd : k.dentries d = some e)
      (hfs : e.fsdata ≠ none) : CoreStep k (k.setDentry d (some { e with dOp := true }))
  /-- a lower path is stored or reset -/
  | path {k : Core σ ι} {d : ℕ} {e : UpperDentry} (hd : k.dentries d = some e)
      (hfs : e.fsdata ≠ none) (path : Option LowerPath) :
      CoreStep k (k.setDentry d (some { e with fsdata := some path }))
  /-- `d_add` -/
  | add {k : Core σ ι} {d : ℕ} {e : UpperDentry} (hd : k.dentries d = some e) (u : ℕ) :
      CoreStep k (k.setDentry d (some { e with inode := some u, hashed := true }))
  /-- `d_drop` -/
  | drop {k : Core σ ι} {d : ℕ} {e : UpperDentry} (hd : k.dentries d = some e) :
      CoreStep k (k.setDentry d (some { e with hashed := false }))
  /-- the end of a dentry, after its `d_release` if it has one -/
  | free {k : Core σ ι} {d : ℕ} {e : UpperDentry} (hd : k.dentries d = some e) :
      CoreStep k (k.setDentry d none)

/-- Code that works by these steps. -/
abbrev Stepwise {α : Type} (m : NsOp σ ι α) : Prop := Moves (CoreStep V) Ns.toCore m

variable {V}

/-- Code that copies attributes takes no step. -/
theorem Quiet.stepwise {α : Type} {m : NsOp σ ι α} (hm : Quiet m) : Stepwise V m := hm.moves

/-- A call of the lower file system. -/
theorem stepwise_setLow (f : Core σ ι → σ) :
    Stepwise V (changeCore fun k => k.setLow (f k) : NsOp σ ι Unit) :=
  .change fun _ => .low _ _

/-- `d_add`. -/
theorem stepwise_dAdd (d u : ℕ) : Stepwise V (dAdd d u : NsOp σ ι Unit) := by
  intro s
  simp only [dAdd, yields_bind, yields_dentryAt, yields_changeCore]
  exact fun e he => .single (.add he u)

/-- `d_drop`. -/
theorem stepwise_dDrop (d : ℕ) : Stepwise V (dDrop d : NsOp σ ι Unit) := by
  intro s
  simp only [dDrop, yields_bind, yields_dentryAt, yields_changeCore]
  exact fun e he => .single (.drop he)

/-- The store of a path follows the private data first. -/
theorem stepwise_wrapfsSetLowerPath (d : ℕ) (path : LowerPath) :
    Stepwise V (wrapfsSetLowerPath d path : NsOp σ ι Unit) := by
  intro s
  simp only [wrapfsSetLowerPath, yields_bind, yields_dentryAt, yields_deref, yields_changeCore]
  intro e he fs hfs
  exact .single (.path he (by rw [hfs]; exact Option.some_ne_none fs) (some path))

theorem stepwise_pathPut (path : LowerPath) : Stepwise V (pathPut path : NsOp σ ι Unit) :=
  .bind (.release _) fun _ => .release _

theorem stepwise_wrapfsGetLowerPath (d : ℕ) :
    Stepwise V (wrapfsGetLowerPath d : NsOp σ ι LowerPath) := by
  intro s
  rw [yields_wrapfsGetLowerPath]
  exact fun _ _ => .refl

theorem stepwise_wrapfsLowerInode (u : ℕ) :
    Stepwise V (wrapfsLowerInode u : NsOp σ ι (Option ι)) := by
  intro s
  rw [yields_wrapfsLowerInode]
  exact fun _ _ => .refl

/-- So does the reset. -/
theorem stepwise_wrapfsPutResetLowerPath (d : ℕ) :
    Stepwise V (wrapfsPutResetLowerPath d : NsOp σ ι Unit) := by
  intro s
  simp only [wrapfsPutResetLowerPath, yields_bind, yields_dentryAt, yields_deref,
    yields_changeCore]
  intro e he fs hfs
  have hstep : CoreStep V s.toCore (s.setDentry d (some { e with fsdata := some none })) :=
    .path he (by rw [hfs]; exact Option.some_ne_none fs) none
  cases fs with
  | none =>
      rw [yields_pure]
      exact .single hstep
  | some path =>
      rw [yields_pathPut]
      exact .single hstep

/-- Write access to the lower mount is not part of the core. -/
theorem stepwise_withWrite (mnt : ℕ) (wantWrite : Option Errno)
    {body : NsOp σ ι (Option Errno)} (hbody : Stepwise V body) :
    Stepwise V (withWrite mnt wantWrite body) := by
  unfold withWrite
  cases wantWrite with
  | some e => exact .pure _
  | none => exact .bind (.acquire _) fun _ => .bind hbody fun _ => .bind (.release _) fun _ => .pure _

variable (V)

/-- The check of the super blocks comes before the inode is made. -/
theorem stepwise_wrapfsInterpose (d : ℕ) (path : LowerPath) (c : IgetCalls) :
    Stepwise V (wrapfsInterpose V d path c) := by
  refine .look_bind fun s => ?_
  simp only [yields_bind, yields_deref, yields_ite, yields_pure]
  intro lower _
  split
  · exact .refl
  rename_i hsb
  rw [yields_changeCore]
  have higet : CoreStep V s.toCore (s.setHash (wrapfsIget s.hash lower c).hash) :=
    .iget s.toCore (not_not.mp hsb) c
  cases (wrapfsIget s.hash lower c).inode with
  | error e =>
      rw [yields_pure]
      exact .single higet
  | ok u =>
      have hrest : Stepwise V (do
          (if (wrapfsIget s.hash lower c).created then initAttrs V u lower else pure ())
          dAdd d u
          pure none : NsOp σ ι (Option Errno)) :=
        .bind (.ite (quiet_initAttrs V u lower).stepwise (.pure _)) fun _ =>
          .bind (stepwise_dAdd d u) fun _ => .pure _
      exact (hrest _).mono fun _ s' hs' => .head higet hs'

/-! ## `wrapfs_lookup` -/

/-- `wrapfs_interpose` after the path is stored, and the path reset if it fails. -/
theorem stepwise_lookupPositive (d : ℕ) (path : LowerPath) (c : IgetCalls) :
    Stepwise V (lookupPositive V d path c) := by
  refine .bind (.bind (.acquire _) fun _ => .acquire _) fun _ =>
    .bind (stepwise_wrapfsSetLowerPath d path) fun _ =>
      .bind (stepwise_wrapfsInterpose V d path c) fun err => ?_
  cases err with
  | none => exact .pure _
  | some err => exact .bind (stepwise_wrapfsPutResetLowerPath d) fun _ => .pure _

omit V in
theorem stepwise_setupLower {V : LowerVfs σ ι} (d lower mnt : ℕ) (flags : LookupFlags) :
    Stepwise V (setupLower d lower mnt flags : NsOp σ ι (Option Errno)) :=
  .bind (.acquire _) fun _ => .bind (stepwise_wrapfsSetLowerPath d _) fun _ => .pure _

/-- A negative lower dentry is allocated below before it is stored above. -/
theorem stepwise_lookupNegative (d : ℕ) (name : String) (flags : LookupFlags) (q : LowerPath)
    (lowerAlloc : Bool) : Stepwise V (lookupNegative V d name flags q lowerAlloc) := by
  refine .bind Balanced.look.moves fun s => ?_
  cases V.dLookup s.low q.dentry name with
  | some lower => exact .bind (.acquire _) fun _ => stepwise_setupLower d lower q.mnt flags
  | none =>
      exact .ite (.bind (stepwise_setLow _) fun _ => .bind (.acquire _) fun _ =>
        stepwise_setupLower d _ q.mnt flags) (.pure _)

/-- `__wrapfs_lookup` of a dentry with private data. -/
theorem steps_wrapfsLookupLower {s : Ns σ ι} {d : ℕ} {e : UpperDentry}
    (hd : s.dentries d = some e) (hfs : e.fsdata ≠ none) (flags : LookupFlags) (q : LowerPath)
    (c : LookupCalls) :
    Yields (wrapfsLookupLower V d flags q c) s fun _ s' =>
      Relation.ReflTransGen (CoreStep V) s.toCore s'.toCore := by
  simp only [wrapfsLookupLower, yields_bind, yields_dentryAt, yields_changeCore]
  intro e' he'
  obtain rfl : e = e' := Option.some.inj (hd.symm.trans he')
  have hop : CoreStep V s.toCore (s.setDentry d (some { e with dOp := true })) := .dOp hd hfs
  refine Yields.mono (P := fun _ s' => Relation.ReflTransGen (CoreStep V)
    (s.setDentry d (some { e with dOp := true })) s'.toCore) ?_ fun _ s' hs' => .head hop hs'
  refine Moves.ite (r := CoreStep V) (f := Ns.toCore) (.pure _)
    (.bind Balanced.look.moves fun t => .bind (stepwise_setLow _) fun _ => ?_) (s.withCore _)
  cases (V.vfsPathLookup t.low q e.name c.pathLookup).1 with
  | ok path => exact stepwise_lookupPositive V d path c.iget
  | error err => exact .ite (.pure _) (stepwise_lookupNegative V d e.name flags q c.lowerAlloc)

/-- The private data is there before `d_set_d_op`, whatever the lookup then finds. -/
theorem stepwise_lookupUnderParent (d parent : ℕ) (flags : LookupFlags) (q : LowerPath)
    (c : LookupCalls) : Stepwise V (lookupUnderParent V d parent flags q c) := by
  intro s
  simp only [lookupUnderParent, newDentryPrivateData, yields_bind, yields_ite]
  split
  · simp only [yields_dentryAt, yields_changeCore, yields_bind, yields_pure]
    intro e he
    have hdata : CoreStep V s.toCore (s.setDentry d (some { e with fsdata := some none })) := .data he
    have hd : (s.withCore (s.setDentry d (some { e with fsdata := some none }))).dentries d =
        some { e with fsdata := some none } := s.setDentry_self d _
    refine (steps_wrapfsLookupLower V hd (Option.some_ne_none none) flags q c).mono ?_
    intro err s' hs'
    cases err with
    | some err =>
        rw [yields_pure]
        exact .head hdata hs'
    | none =>
        rw [yields_bind]
        have hcopy : Stepwise V (copyLookupAttrs V d parent) :=
          (quiet_copyLookupAttrs V d parent).stepwise
        refine (hcopy s').mono fun _ s'' hs'' => ?_
        rw [yields_pure]
        exact .head hdata (hs'.trans hs'')
  · simp only [yields_pure]
    exact .refl

/-- **`wrapfs_lookup`.** -/
theorem stepwise_wrapfsLookup (d : ℕ) (nd : Option LookupFlags) (c : LookupCalls) :
    Stepwise V (wrapfsLookup V d nd c) := by
  cases nd with
  | none =>
      intro s
      exact yields_fault _
  | some flags =>
      refine .bind (quiet_dentryAt d).stepwise fun e => .bind (.acquire _) fun _ => ?_
      refine .bind (stepwise_wrapfsGetLowerPath e.parent) fun q => ?_
      refine .bind (stepwise_lookupUnderParent V d e.parent flags q c) fun _ => ?_
      exact .bind (stepwise_pathPut q) fun _ => .bind (.release _) fun _ => .pure _

/-! ## `inode.c` -/

/-- The lower call, then `wrapfs_interpose`. -/
theorem stepwise_newUnderWrite (kind : NewKind) {finish : NsOp σ ι Unit} (hfinish : Stepwise V finish)
    (dir d : ℕ) (path : LowerPath) (parent : ℕ) (c : NewCalls) :
    Stepwise V (newUnderWrite V kind finish dir d path parent c) := by
  refine .bind Balanced.look.moves fun s => .bind (stepwise_setLow _) fun _ => ?_
  cases (V.vfsNew kind s.low (V.dInode s.low parent) path.dentry c.vfs).1 with
  | some e => exact .pure _
  | none =>
      refine .bind (stepwise_wrapfsInterpose V _ _ _) fun err => ?_
      cases err with
      | some e => exact .pure _
      | none =>
          refine .bind (quiet_copyFromOwn V _ _).stepwise fun _ => .bind Balanced.look.moves fun _ => ?_
          exact .bind (quiet_copyFrom V _ _ _).stepwise fun _ => .bind hfinish fun _ => .pure _

theorem stepwise_lockParent (lower : ℕ) : Stepwise V (lockParent V lower) := by
  intro s
  rw [yields_lockParent]

theorem stepwise_unlockDir (dir : ℕ) : Stepwise V (unlockDir dir : NsOp σ ι Unit) :=
  .bind (.release _) fun _ => .release _

/-- What is around the lower call of an operation takes no step. -/
theorem stepwise_underLockedParent (d : ℕ) (wantWrite : Option Errno)
    {body : LowerPath → ℕ → NsOp σ ι (Option Errno)}
    (hbody : ∀ path parent, Stepwise V (body path parent)) :
    Stepwise V (underLockedParent V d wantWrite body) := by
  refine .bind (stepwise_wrapfsGetLowerPath d) fun path =>
    .bind (stepwise_lockParent V path.dentry) fun parent => ?_
  refine .bind (stepwise_withWrite _ _ (hbody path parent)) fun _ => ?_
  exact .bind (stepwise_unlockDir V parent) fun _ => .bind (stepwise_pathPut path) fun _ => .pure _

/-- **`wrapfs_symlink`, `wrapfs_mkdir` and `wrapfs_mknod`.** -/
theorem stepwise_wrapfsNew (kind : NewKind) {finish : NsOp σ ι Unit} (hfinish : Stepwise V finish)
    (dir d : ℕ) (c : NewCalls) : Stepwise V (wrapfsNew V kind finish dir d c) :=
  stepwise_underLockedParent V d c.wantWrite fun path parent =>
    stepwise_newUnderWrite V kind hfinish dir d path parent c

/-- **`wrapfs_create`.** -/
theorem stepwise_wrapfsCreate (dir d : ℕ) (nd : Option LookupFlags) (c : NewCalls) :
    Stepwise V (wrapfsCreate V dir d nd c) :=
  stepwise_underLockedParent V d c.wantWrite fun path parent =>
    .bind (quiet_deref _).stepwise fun _ =>
      stepwise_newUnderWrite V .create (.pure _) dir d path parent c

/-- The lower `vfs_link`, then `wrapfs_interpose`. -/
theorem stepwise_linkUnderWrite (uOld dir d : ℕ) (oldPath newPath : LowerPath)
    (parent fileSizeSave : ℕ) (c : NewCalls) :
    Stepwise V (linkUnderWrite V uOld dir d oldPath newPath parent fileSizeSave c) := by
  refine .bind Balanced.look.moves fun s => .bind (stepwise_setLow _) fun _ => ?_
  cases (V.vfsLink s.low oldPath.dentry (V.dInode s.low parent) newPath.dentry c.vfs).1 with
  | some e => exact .pure _
  | none =>
      refine .ite (.pure _) (.bind (stepwise_wrapfsInterpose V _ _ _) fun err => ?_)
      cases err with
      | some e => exact .pure _
      | none =>
          refine .bind (quiet_copyFrom V _ _ _).stepwise fun _ => ?_
          refine .bind (quiet_copyFrom V _ _ _).stepwise fun _ => ?_
          refine .bind (quiet_copyFromOwn V _ _).stepwise fun _ => ?_
          refine .bind (quiet_dentryAt _).stepwise fun e => .bind (quiet_deref _).stepwise fun u => ?_
          exact .bind (quiet_touchInode _ _).stepwise fun _ => .pure _

/-- **`wrapfs_link`.** -/
theorem stepwise_wrapfsLink (old dir d : ℕ) (c : NewCalls) :
    Stepwise V (wrapfsLink V old dir d c) := by
  refine .bind (quiet_dentryAt _).stepwise fun e => .bind (quiet_deref _).stepwise fun u =>
    .bind Balanced.look.moves fun s => ?_
  refine .bind (stepwise_wrapfsGetLowerPath old) fun oldPath =>
    .bind (stepwise_wrapfsGetLowerPath d) fun newPath =>
      .bind (stepwise_lockParent V newPath.dentry) fun parent => ?_
  refine .bind (stepwise_withWrite _ _ (stepwise_linkUnderWrite V _ _ _ _ _ _ _ _)) fun _ => ?_
  exact .bind (stepwise_unlockDir V parent) fun _ => .bind (stepwise_pathPut oldPath) fun _ =>
    .bind (stepwise_pathPut newPath) fun _ => .pure _

/-- The lower `vfs_unlink`, then `d_drop`. -/
theorem stepwise_unlinkUnderWrite (dir d : ℕ) (lowerDir : Option ι) (path : LowerPath)
    (c : RemoveCalls) : Stepwise V (unlinkUnderWrite V dir d lowerDir path c) := by
  refine .bind Balanced.look.moves fun s => .bind (stepwise_setLow _) fun _ => ?_
  split
  · exact .pure _
  · refine .bind ?_ fun _ => .pure _
    refine .bind (quiet_copyFrom V _ _ _).stepwise fun _ => ?_
    refine .bind (quiet_copyFrom V _ _ _).stepwise fun _ => ?_
    refine .bind (quiet_dentryAt _).stepwise fun e => .bind (quiet_deref _).stepwise fun u => ?_
    refine .bind (quiet_copyFromOwn V _ _).stepwise fun _ => .bind Balanced.look.moves fun _ => ?_
    exact .bind (quiet_touchInode _ _).stepwise fun _ => stepwise_dDrop d

/-- **`wrapfs_unlink`.** -/
theorem stepwise_wrapfsUnlink (dir d : ℕ) (c : RemoveCalls) :
    Stepwise V (wrapfsUnlink V dir d c) := by
  refine .bind (stepwise_wrapfsLowerInode _) fun lowerDir =>
    .bind (stepwise_wrapfsGetLowerPath d) fun path => .bind (.acquire _) fun _ =>
      .bind (stepwise_lockParent V path.dentry) fun parent => ?_
  refine .bind (stepwise_withWrite _ _ (stepwise_unlinkUnderWrite V _ _ _ _ _)) fun _ => ?_
  exact .bind (stepwise_unlockDir V parent) fun _ => .bind (.release _) fun _ =>
    .bind (stepwise_pathPut path) fun _ => .pure _

/-- The lower `vfs_rmdir`, then `d_drop`. -/
theorem stepwise_rmdirUnderWrite (dir d : ℕ) (path : LowerPath) (parent : ℕ) (c : RemoveCalls) :
    Stepwise V (rmdirUnderWrite V dir d path parent c) := by
  refine .bind Balanced.look.moves fun s => .bind (stepwise_setLow _) fun _ => ?_
  cases (V.vfsRmdir s.low (V.dInode s.low parent) path.dentry c.vfs).1 with
  | some e => exact .pure _
  | none =>
      refine .bind (stepwise_dDrop d) fun _ => .bind (quiet_dentryAt _).stepwise fun e => ?_
      refine .bind ?_ fun _ => ?_
      · cases e.inode with
        | none => exact .pure _
        | some u => exact (quiet_touchInode _ _).stepwise
      · refine .bind (quiet_copyFrom V _ _ _).stepwise fun _ => ?_
        refine .bind (quiet_copyFrom V _ _ _).stepwise fun _ => ?_
        exact .bind (quiet_copyFrom V _ _ _).stepwise fun _ => .pure _

/-- **`wrapfs_rmdir`.** -/
theorem stepwise_wrapfsRmdir (dir d : ℕ) (c : RemoveCalls) :
    Stepwise V (wrapfsRmdir V dir d c) := by
  refine .bind (stepwise_wrapfsGetLowerPath d) fun path =>
    .bind (stepwise_lockParent V path.dentry) fun parent => ?_
  refine .bind (stepwise_withWrite _ _ (stepwise_rmdirUnderWrite V _ _ _ _ _)) fun _ => ?_
  exact .bind (stepwise_unlockDir V parent) fun _ => .bind (stepwise_pathPut path) fun _ => .pure _

/-- A rename changes the lower file system only. -/
theorem stepwise_renameLocked (oldDir newDir : ℕ) (oldPath newPath : LowerPath)
    (lowerOldDir lowerNewDir : ℕ) (trap : Option ℕ) (c : RenameCalls) :
    Stepwise V
      (renameLocked V oldDir newDir oldPath newPath lowerOldDir lowerNewDir trap c) := by
  refine .ite (.pure _) (.ite (.pure _) (stepwise_withWrite _ _ (stepwise_withWrite _ _ ?_)))
  refine .bind Balanced.look.moves fun s => .bind (stepwise_setLow _) fun _ => ?_
  split
  · exact .pure _
  · exact .bind (quiet_copyRenameAttrs V _ _ _ _).stepwise fun _ => .pure _

/-- **`wrapfs_rename`.** -/
theorem stepwise_wrapfsRename (oldDir old newDir new : ℕ) (c : RenameCalls) :
    Stepwise V (wrapfsRename V oldDir old newDir new c) := by
  refine .bind (stepwise_wrapfsGetLowerPath old) fun oldPath =>
    .bind (stepwise_wrapfsGetLowerPath new) fun newPath => .bind Balanced.look.moves fun s =>
      .bind (.acquire _) fun _ => .bind (.acquire _) fun _ => .bind ?_ fun trap => ?_
  · intro t
    rw [yields_lockRename]
  refine .bind (stepwise_renameLocked V _ _ _ _ _ _ _ _) fun _ => .bind ?_ fun _ => ?_
  · intro t
    rw [yields_unlockRename]
  exact .bind (.release _) fun _ => .bind (.release _) fun _ =>
    .bind (stepwise_pathPut oldPath) fun _ => .bind (stepwise_pathPut newPath) fun _ => .pure _

/-- **`wrapfs_readlink`.** -/
theorem stepwise_wrapfsReadlink (d : ℕ) (readlink : Except Errno ℕ) :
    Stepwise V (wrapfsReadlink V d readlink) := by
  refine .bind (stepwise_wrapfsGetLowerPath d) fun path => .bind Balanced.look.moves fun s =>
    .bind (quiet_deref _).stepwise fun lower => .bind ?_ fun _ =>
      .bind (stepwise_pathPut path) fun _ => .pure _
  cases (if V.hasReadlink lower then readlink else .error .EINVAL : Except Errno ℕ) with
  | error e => exact .pure _
  | ok count =>
      exact .bind (quiet_dentryAt _).stepwise fun e => .bind (quiet_deref _).stepwise fun u =>
        (quiet_copyFrom V _ _ _).stepwise

theorem stepwise_setattrLower (u : ℕ) (lower : Option ι) (path : LowerPath) (ia : Iattr)
    (c : SetattrCalls) : Stepwise V (setattrLower V u lower path ia c) := by
  refine .bind (.acquire _) fun _ => .bind Balanced.look.moves fun s =>
    .bind (stepwise_setLow _) fun _ => .bind (.release _) fun _ => ?_
  cases (V.notifyChange s.low path.dentry (lowerIattr ia) c.notifyChange).1 with
  | some e => exact .pure _
  | none => exact .bind (quiet_copyFrom V _ _ _).stepwise fun _ => .pure _

/-- **`wrapfs_setattr`.** -/
theorem stepwise_wrapfsSetattr (d : ℕ) (ia : Iattr) (c : SetattrCalls) :
    Stepwise V (wrapfsSetattr V d ia c) := by
  refine .bind (quiet_dentryAt _).stepwise fun e => .bind (quiet_deref _).stepwise fun u => ?_
  cases c.changeOk with
  | some e => exact .pure _
  | none =>
      refine .bind (stepwise_wrapfsGetLowerPath d) fun path =>
        .bind (stepwise_wrapfsLowerInode _) fun lower => .bind ?_ fun _ =>
          .bind (stepwise_pathPut path) fun _ => .pure _
      unfold setattrUnderPath
      cases ia.size with
      | none => exact stepwise_setattrLower V _ _ _ _ _
      | some size =>
          cases c.newsizeOk with
          | some e => exact .pure _
          | none =>
              exact .bind (quiet_touchInode _ _).stepwise fun _ => stepwise_setattrLower V _ _ _ _ _

/-! ## `dentry.c` -/

/-- **`wrapfs_d_revalidate`.** -/
theorem stepwise_wrapfsDRevalidate (d : ℕ) (nd : Option LookupFlags)
    (lowerRevalidate : Option ℤ) :
    Stepwise V (wrapfsDRevalidate d nd lowerRevalidate : NsOp σ ι ℤ) := by
  refine .ite (.pure _) (.bind (stepwise_wrapfsGetLowerPath d) fun path => .bind ?_ fun _ =>
    .bind (stepwise_pathPut path) fun _ => .pure _)
  cases lowerRevalidate with
  | none => exact .pure _
  | some ret => exact .bind (quiet_deref _).stepwise fun _ => .pure _

/-- The end of a dentry is one step, though `wrapfs_d_release` takes three. -/
theorem stepwise_dFree (d : ℕ) : Stepwise V (dFree d : NsOp σ ι Unit) := by
  intro s
  simp only [dFree, yields_bind, yields_dentryAt, yields_ite, yields_pure, yields_changeCore]
  intro e he
  have hfree : CoreStep V s.toCore (s.setDentry d none) := .free he
  split
  · cases hfs : e.fsdata with
    | none => simp [wrapfsDRelease, wrapfsPutResetLowerPath, he, hfs]
    | some fs =>
        rw [wrapfsDRelease, yields_bind, yields_wrapfsPutResetLowerPath he hfs]
        simp only [yields_bind, yields_dentryAt, yields_changeCore, Ns.withCore_toCore,
          Core.setDentry_self, Core.setDentry_setDentry]
        exact fun _ _ => .single hfree
  · exact .single hfree

/-! ## Any call -/

theorem stepwise_discard {V : LowerVfs σ ι} {α : Type} {m : NsOp σ ι α} (hm : Stepwise V m) :
    Stepwise V (discard m) :=
  .bind hm fun _ => .pure _

/-- **There are no other steps.** -/
theorem stepwise_callOp (a : NsCall σ) : Stepwise V (callOp V a) := by
  cases a with
  | lookup parent name nd c =>
      refine .bind (.look_bind fun s => ?_) fun d => stepwise_discard (stepwise_wrapfsLookup V d nd c)
      simp only [yields_bind, yields_changeCore, yields_pure]
      exact .single (.alloc s.toCore name parent)
  | create dir d nd c => exact stepwise_discard (stepwise_wrapfsCreate V _ _ _ _)
  | symlink dir d c => exact stepwise_discard (stepwise_wrapfsNew V _ (.pure _) _ _ _)
  | mkdir dir d c =>
      exact stepwise_discard (stepwise_wrapfsNew V _ (quiet_copyFromOwn V _ _).stepwise _ _ _)
  | mknod dir d c => exact stepwise_discard (stepwise_wrapfsNew V _ (.pure _) _ _ _)
  | link old dir d c => exact stepwise_discard (stepwise_wrapfsLink V _ _ _ _)
  | unlink dir d c => exact stepwise_discard (stepwise_wrapfsUnlink V _ _ _)
  | rmdir dir d c => exact stepwise_discard (stepwise_wrapfsRmdir V _ _ _)
  | rename oldDir old newDir new c => exact stepwise_discard (stepwise_wrapfsRename V _ _ _ _ _)
  | readlink d answer => exact stepwise_discard (stepwise_wrapfsReadlink V _ _)
  | setattr d ia c => exact stepwise_discard (stepwise_wrapfsSetattr V _ _ _)
  | revalidate d nd answer => exact stepwise_discard (stepwise_wrapfsDRevalidate V _ _ _)
  | release d => exact stepwise_dFree V d
  | evictInode u => exact .change fun s => .evict s.toCore u
  | lowerChange low => exact stepwise_setLow fun _ => low

end Steps

/-! ## Private data -/

/-- A dentry whose `d_release` will be called has private data. -/
def Core.Releasable (k : Core σ ι) : Prop :=
  ∀ d e, k.dentries d = some e → e.dOp = true → e.fsdata ≠ none

/-- It is a property of what the ledger depends on. -/
theorem Core.releasable_iff_info {k : Core σ ι} :
    k.Releasable ↔ ∀ d fs, k.info d = some (true, fs) → fs ≠ none := by
  constructor
  · intro h d fs hd
    obtain ⟨e, he, hop, rfl⟩ := Core.info_eq_some.mp hd
    exact h d e he hop
  · intro h d e hd hop
    exact h d e.fsdata (Core.info_eq_some.mpr ⟨e, hd, hop, rfl⟩)

/-- One dentry is replaced. -/
theorem Core.Releasable.setDentry {k : Core σ ι} (h : k.Releasable) (d : ℕ)
    {e : Option UpperDentry} (he : ∀ e', e = some e' → e'.dOp = true → e'.fsdata ≠ none) :
    (k.setDentry d e).Releasable := by
  intro d' e' hd'
  by_cases hne : d' = d
  · subst hne
    rw [setDentry_self] at hd'
    exact he e' hd'
  · rw [k.setDentry_of_ne hne] at hd'
    exact h d' e' hd'

variable (V : LowerVfs σ ι) [DecidableEq ι]

/-- **Every step keeps it.**  The two that could break it have the condition they need. -/
theorem CoreStep.releasable {k k' : Core σ ι} (hstep : CoreStep V k k') (h : k.Releasable) :
    k'.Releasable := by
  cases hstep with
  | low low => exact h
  | iget hsb c => exact h
  | evict u => exact h
  | alloc name parent =>
      refine (h.setDentry k.nextDentry fun e' he' hop => ?_)
      obtain rfl := Option.some.inj he'
      cases hop
  | data hd =>
      refine h.setDentry _ fun e' he' _ => ?_
      obtain rfl := Option.some.inj he'
      exact Option.some_ne_none none
  | dOp hd hfs =>
      refine h.setDentry _ fun e' he' _ => ?_
      obtain rfl := Option.some.inj he'
      exact hfs
  | path hd hfs path =>
      refine h.setDentry _ fun e' he' _ => ?_
      obtain rfl := Option.some.inj he'
      exact Option.some_ne_none path
  | @add d e hd u =>
      refine h.setDentry d fun e' he' hop => ?_
      obtain rfl := Option.some.inj he'
      exact h d e hd hop
  | @drop d e hd =>
      refine h.setDentry d fun e' he' hop => ?_
      obtain rfl := Option.some.inj he'
      exact h d e hd hop
  | free hd =>
      refine h.setDentry _ fun e' he' _ => ?_
      cases he'

/-! ## Confinement -/

end Wrapfs.Namespace
