import Mathlib
import Wrapfs.Namespace.Mirror

/-!
# Link counts

Whether the link count of every live upper inode is that of its lower inode, over whole runs of
`vfsStep`.  An upper inode stays live, in the inode hash, until it is evicted, and that may be
long after its last name is gone: a file that is still open.

Each operation refreshes the counts of some of the inodes whose lower counts it has changed.
`LinkInv X` says that the counts agree except perhaps for the lower inodes in `X`: a lower call
puts inodes into `X` (`LinkInv.setLow`), and each count that is copied takes one out
(`LinkInv.touch`).  An operation is right if it starts and ends with `X` empty, and its proof is
the list of these two moves in the order of the code.

## The replaced file

`wrapfs_rename` copies the attributes of the two directories and no others.  A file it replaces
loses a link below and keeps its count above (`replaced_count_stale`).  `CountsRefreshed` excludes
this, and also a `mkdir` that fails for want of an inode after the lower directory has been made
and counted by its parent.  All else that can happen in a run keeps the counts
(`link_counts_mirrored`): a new inode copies its count, `link` and `unlink` copy that of the file,
`mkdir` that of the directory, and `rmdir` clears one and copies the other.

The condition is put on the state before the system call, in terms of the names that the user sees
below (`Core.namedBelow`), not of what the walks inside the call find.  `WalkFrame.namedBelow` is
what makes this enough: the walks put no inode under a name.

## What is assumed

The lower file system is the tree of `Wrapfs.Namespace.LowerTree`, since what its calls do to the
counts matters.  Inode numbers of the super block are given out once (`hinos`): with a number in
use twice, a new file could share the count of an old one.  `LinkInv` carries this along, for the
lower inodes and for those the upper ones have.  Which dentry leads to which inode is taken from
the mirror invariant, which is carried beside it; the two are proved of one step together.
-/

namespace Wrapfs.Namespace

open Ledger LowerTree Runs

variable {super lroot : ℕ} {A : Set ℕ} {s s' : Ns LowerTree LowerInode} {X : Set LowerInode}

/-! ## What the lower calls do to the counts -/

namespace LowerTree

variable (t : LowerTree) {z : LowerInode}

@[simp] theorem nlink_setNlink_self (x : LowerInode) (f : ℕ → ℕ) :
    ((t.setNlink x f).attr x).nlink = f (t.attr x).nlink := by
  simp [setNlink]

/-- The other inodes keep their counts. -/
theorem nlink_setNlink_of_ne {x : LowerInode} (hz : z ≠ x) (f : ℕ → ℕ) :
    ((t.setNlink x f).attr z).nlink = (t.attr z).nlink := by
  simp [setNlink, Function.update_of_ne hz]

/-- So they do when a directory gains a subdirectory. -/
theorem nlink_incDir_of_ne {dir : Option LowerInode} (hz : dir ≠ some z) :
    ((t.incDir dir).attr z).nlink = (t.attr z).nlink := by
  cases dir with
  | none => rfl
  | some x =>
      exact t.nlink_setNlink_of_ne (fun heq => hz (congrArg some heq.symm)) fun n => n + 1

/-- So they do when it loses one. -/
theorem nlink_dropDir_of_ne {dir : Option LowerInode} (hz : dir ≠ some z) :
    ((t.dropDir dir).attr z).nlink = (t.attr z).nlink := by
  cases dir with
  | none => rfl
  | some x =>
      exact t.nlink_setNlink_of_ne (fun heq => hz (congrArg some heq.symm)) fun n => n - 1

/-- A count of zero stays zero when a link is dropped. -/
theorem nlink_dropDir_of_zero {dir : Option LowerInode} (hz : (t.attr z).nlink = 0) :
    ((t.dropDir dir).attr z).nlink = 0 := by
  by_cases hdir : dir = some z
  · subst hdir
    show ((t.setNlink z fun n => n - 1).attr z).nlink = 0
    rw [nlink_setNlink_self, hz]
  · rw [t.nlink_dropDir_of_ne hdir, hz]

/-- A new file changes its own count, and a new directory that of its parent too. -/
theorem nlink_countNew_of_ne {kind : NewKind} {dir new : LowerInode} (hnew : z ≠ new)
    (hdir : kind = .mkdir → z ≠ dir) :
    ((t.countNew kind dir new).attr z).nlink = (t.attr z).nlink := by
  unfold countNew
  split
  · rename_i hkind
    rw [nlink_incDir_of_ne _ fun heq => hdir hkind (Option.some.inj heq).symm,
      nlink_setNlink_of_ne _ hnew]
  · exact t.nlink_setNlink_of_ne hnew _

/-- A rename that replaces nothing changes the counts of the directories alone. -/
theorem nlink_countRename_of_ne {x : LowerInode} {oldDir newDir : Option LowerInode}
    (hold : oldDir ≠ some z) (hnew : newDir ≠ some z) :
    ((t.countRename x oldDir newDir none).attr z).nlink = (t.attr z).nlink := by
  simp only [countRename]
  split
  · rw [nlink_dropDir_of_ne _ hold, nlink_incDir_of_ne _ hnew]
  · rfl

end LowerTree

/-! ## The invariant -/

/-- Inode numbers are given out once, and the counts agree except for `X`. -/
structure LinkInv (super : ℕ) (X : Set LowerInode) (s : Ns LowerTree LowerInode) : Prop where
  wf : s.hash.Wf
  lower : ∀ l x, (s.low.dentries l).inode = some x → x.sb = super → x.ino < s.low.nextIno
  upper : ∀ u x, s.hash.lowerOf u = some x → x.ino < s.low.nextIno
  counts : ∀ u x, s.hash.lowerOf u = some x → x ∉ X → (s.attr u).nlink = (s.low.attr x).nlink

/-- With more exceptions the invariant says less. -/
theorem LinkInv.mono {Y : Set LowerInode} (h : LinkInv super X s) (hXY : X ⊆ Y) :
    LinkInv super Y s :=
  ⟨h.wf, h.lower, h.upper, fun u x hu hx => h.counts u x hu fun hmem => hx (hXY hmem)⟩

/-- **A count is copied.** -/
theorem LinkInv.touch (h : LinkInv super X s) {u : ℕ} {x : LowerInode}
    (hu : s.hash.lowerOf u = some x) {Y : Set LowerInode} (hY : ∀ z ∈ X, z ≠ x → z ∈ Y)
    {f : Attr → Attr} (hf : (f (s.attr u)).nlink = (s.low.attr x).nlink) :
    LinkInv super Y (s.touch u f) := by
  refine ⟨h.wf, h.lower, h.upper, fun v y hv hy => ?_⟩
  have hv : s.hash.lowerOf v = some y := hv
  by_cases hvu : v = u
  · subst hvu
    obtain rfl : x = y := Option.some.inj (hu.symm.trans hv)
    show (Function.update s.attr v _ v).nlink = _
    rw [Function.update_self]
    exact hf
  · have hyx : y ≠ x := by
      rintro rfl
      exact hvu (h.wf.unique v u y hv hu)
    show (Function.update s.attr u _ v).nlink = _
    rw [Function.update_of_ne hvu]
    exact h.counts v y hv fun hmem => hy (hY y hmem hyx)

/-- Other attributes are copied. -/
theorem LinkInv.touch_other (h : LinkInv super X s) (u : ℕ) {f : Attr → Attr}
    (hf : (f (s.attr u)).nlink = (s.attr u).nlink) : LinkInv super X (s.touch u f) := by
  refine ⟨h.wf, h.lower, h.upper, fun v y hv hy => ?_⟩
  refine Eq.trans ?_ (h.counts v y hv hy)
  by_cases hvu : v = u
  · subst hvu
    show (Function.update s.attr v _ v).nlink = _
    rw [Function.update_self]
    exact hf
  · show (Function.update s.attr u _ v).nlink = _
    rw [Function.update_of_ne hvu]

/-- The dentries do not matter. -/
theorem LinkInv.withCore (h : LinkInv super X s) {k : TreeCore} (hlow : k.low = s.low)
    (hhash : k.hash = s.hash) : LinkInv super X (s.withCore k) := by
  refine ⟨?_, ?_, ?_, ?_⟩
  · rw [Ns.withCore_toCore, hhash]
    exact h.wf
  · rw [Ns.withCore_toCore, hlow]
    exact h.lower
  · rw [Ns.withCore_toCore, hlow, hhash]
    exact h.upper
  · rw [Ns.withCore_toCore, hlow, hhash]
    exact h.counts

/-- **The lower counts change**, for the inodes in `X`. -/
theorem LinkInv.setLow (h : LinkInv super ∅ s) {t : LowerTree}
    (hnext : s.low.nextIno ≤ t.nextIno)
    (hlower : ∀ l x, (t.dentries l).inode = some x → x.sb = super → x.ino < t.nextIno)
    (hcounts : ∀ z, z.ino < s.low.nextIno → z ∉ X → (t.attr z).nlink = (s.low.attr z).nlink) :
    LinkInv super X (s.withCore (s.setLow t)) := by
  refine ⟨h.wf, hlower, fun u x hu => (h.upper u x hu).trans_le hnext, fun u x hu hx => ?_⟩
  have hu : s.hash.lowerOf u = some x := hu
  show (s.attr u).nlink = (t.attr x).nlink
  rw [hcounts x (h.upper u x hu) hx]
  exact h.counts u x hu (Set.notMem_empty x)

/-- The same when no dentry gets another inode. -/
theorem LinkInv.setLow_of_inodes (h : LinkInv super ∅ s) {t t' : LowerTree}
    (ht : t'.Recount t) (hnext : t'.nextIno = s.low.nextIno)
    (hinodes : ∀ l, (t'.dentries l).inode = (s.low.dentries l).inode)
    (hcounts : ∀ z ∉ X, (t.attr z).nlink = (s.low.attr z).nlink) :
    LinkInv super X (s.withCore (s.setLow t)) := by
  obtain ⟨a, rfl⟩ := ht
  refine h.setLow hnext.ge (fun l x hx hsb => ?_) fun z _ hz => hcounts z hz
  have hx : (t'.dentries l).inode = some x := hx
  rw [hinodes] at hx
  show x.ino < t'.nextIno
  rw [hnext]
  exact h.lower l x hx hsb

/-- **The inodes change.**  A new one has its lower inode in `Y`. -/
theorem LinkInv.setHash (h : LinkInv super X s) {hash : InodeHash LowerInode} (hwf : hash.Wf)
    {Y : Set LowerInode} (hXY : X ⊆ Y)
    (hold : ∀ u x, hash.lowerOf u = some x →
      s.hash.lowerOf u = some x ∨ x ∈ Y ∧ x.ino < s.low.nextIno) :
    LinkInv super Y (s.withCore (s.setHash hash)) := by
  refine ⟨hwf, h.lower, fun u x hu => ?_, fun u x hu hx => ?_⟩
  · rcases hold u x hu with hu | ⟨-, hino⟩
    · exact h.upper u x hu
    · exact hino
  · rcases hold u x hu with hu | ⟨hmem, -⟩
    · exact h.counts u x hu fun hmem => hx (hXY hmem)
    · exact absurd hmem hx

/-! ## `wrapfs_interpose` -/

/-- What `wrapfs_interpose` leaves. -/
structure Interposed (super : ℕ) (X : Set LowerInode) (s s' : Ns LowerTree LowerInode) :
    Prop where
  inv : LinkInv super X s'
  low : s'.low = s.low
  lowerOf : ∀ u x, s.hash.lowerOf u = some x → s'.hash.lowerOf u = some x

/-- The end of `wrapfs_interpose`. -/
theorem interposed_dAdd {t : Ns LowerTree LowerInode} (h : Interposed super X s t) (d u : ℕ) :
    Yields (dAdd d u : TreeOp Unit) t fun _ s' => Interposed super X s s' := by
  simp only [dAdd, yields_bind, yields_dentryAt, yields_changeCore]
  intro e _
  exact ⟨h.inv.withCore rfl rfl, h.low, h.lowerOf⟩

/-- The attributes of a new inode are those of its lower inode. -/
theorem LinkInv.initAttrs (h : LinkInv super X s) {u : ℕ} {x : LowerInode}
    (hu : s.hash.lowerOf u = some x) {Y : Set LowerInode} (hY : ∀ z ∈ X, z ≠ x → z ∈ Y) :
    Yields (initAttrs (treeVfs super) u x) s fun _ s' =>
      LinkInv super Y s' ∧ s'.toCore = s.toCore := by
  simp only [Namespace.initAttrs, yields_bind, yields_copyFrom]
  intro y hy z hz
  cases hy
  cases hz
  exact ⟨(h.touch hu hY rfl).touch_other u rfl, rfl⟩

/-- `wrapfs_interpose` keeps the counts, and it succeeds on the lower super block if
`wrapfs_iget` finds the inode or gets all it asks for. -/
theorem links_wrapfsInterpose (h : LinkInv super X s) (d : ℕ) (path : LowerPath)
    (c : IgetCalls) :
    Yields (wrapfsInterpose (treeVfs super) d path c) s fun err s' =>
      Interposed super X s s' ∧
        ∀ x, (s.low.dentries path.dentry).inode = some x → x.sb = super →
          c = ⟨true, true⟩ ∨ (∃ u, s.hash.lowerOf u = some x) → err = none := by
  simp only [wrapfsInterpose, yields_bind, yields_look, yields_deref, yields_ite, yields_pure,
    yields_changeCore]
  intro lower hlower
  split
  · rename_i hsb
    refine ⟨⟨h, rfl, fun _ _ hu => hu⟩, fun x hx hxsb _ => ?_⟩
    obtain rfl : lower = x := Option.some.inj (hlower.symm.trans hx)
    exact absurd hxsb hsb
  · rename_i hsb
    have hsb : lower.sb = super := not_not.mp hsb
    have hino : lower.ino < s.low.nextIno := h.lower path.dentry lower hlower hsb
    rcases wrapfsIget_cases lower c h.wf with
      ⟨u, hu, hcall⟩ | ⟨hnew, hcall | ⟨hc, err, hash, es, hcall, hhash⟩⟩
    · -- the inode was there
      simp only [hcall, Bool.false_eq_true, if_false, yields_bind, yields_pure]
      refine (interposed_dAdd ⟨?_, rfl, fun _ _ hu => hu⟩ d u).mono fun _ _ hs' =>
        ⟨hs', fun _ _ _ _ => trivial⟩
      exact h.setHash h.wf subset_rfl fun _ _ hu => Or.inl hu
    · -- it is new: its count is off until the attributes are copied
      have hwf : (s.hash.insertNew ⟨some lower, false⟩).Wf := by
        refine h.wf.insertNew fun x hx => ?_
        cases hx
        exact hnew
      have hset : LinkInv super (insert lower X)
          (s.withCore (s.setHash (s.hash.insertNew ⟨some lower, false⟩))) := by
        refine h.setHash hwf (Set.subset_insert _ _) fun u x hu => ?_
        rcases InodeHash.lowerOf_insertNew_cases hu with hu | ⟨-, hx⟩
        · exact Or.inl hu
        · cases hx
          exact Or.inr ⟨Set.mem_insert _ _, hino⟩
      have hself : (s.hash.insertNew ⟨some lower, false⟩).lowerOf s.hash.next = some lower :=
        InodeHash.lowerOf_set_self _ _ _
      simp only [hcall, if_true, yields_bind, yields_pure]
      refine (hset.initAttrs hself (Y := X) fun z hz hne => ?_).mono fun _ t ht => ?_
      · exact Set.mem_of_mem_insert_of_ne hz hne
      · obtain ⟨hinv, hcore⟩ := ht
        refine (interposed_dAdd ⟨hinv, ?_, fun u x hu => ?_⟩ d _).mono fun _ _ hs' =>
          ⟨hs', fun _ _ _ _ => trivial⟩
        · rw [hcore]
          rfl
        · rw [hcore]
          exact h.wf.lowerOf_insertNew _ hu
    · -- a failure leaves at most an inode without a lower inode
      have hkeep : hash.Wf ∧ ∀ u x, hash.lowerOf u = some x ↔ s.hash.lowerOf u = some x := by
        rcases hhash with rfl | rfl
        · exact ⟨h.wf, fun _ _ => Iff.rfl⟩
        · refine ⟨h.wf.insertNew fun x hx => ?_, fun u x => ⟨fun hu => ?_, fun hu => ?_⟩⟩
          · cases hx
          · rcases InodeHash.lowerOf_insertNew_cases hu with hu | ⟨-, hx⟩
            · exact hu
            · cases hx
          · exact h.wf.lowerOf_insertNew _ hu
      simp only [hcall, yields_pure]
      refine ⟨⟨?_, rfl, fun u x hu => (hkeep.2 u x).mpr hu⟩, fun x hx _ hfind => ?_⟩
      · exact h.setHash hkeep.1 subset_rfl fun u x hu => Or.inl ((hkeep.2 u x).mp hu)
      · obtain rfl : lower = x := Option.some.inj (hlower.symm.trans hx)
        rcases hfind with hfind | ⟨u, hu⟩
        · exact absurd hfind hc
        · exact absurd hu (hnew u)

/-! ## The walk -/

/-- Dentries are changed. -/
theorem preserves_changeCore {f : TreeCore → TreeCore} (hlow : ∀ k, (f k).low = k.low)
    (hhash : ∀ k, (f k).hash = k.hash) :
    Preserves (LinkInv super X) (changeCore f : TreeOp Unit) :=
  .change fun _ h => h.withCore (hlow _) (hhash _)

/-- Following a pointer changes nothing. -/
theorem preserves_deref {I : Ns LowerTree LowerInode → Prop} {α : Type} (p : Option α) :
    Preserves I (deref p : TreeOp α) := by
  intro s hs
  rw [yields_deref]
  exact fun _ _ => hs

theorem preserves_dentryAt {I : Ns LowerTree LowerInode → Prop} (d : ℕ) :
    Preserves I (dentryAt d : TreeOp UpperDentry) :=
  .look_bind fun s hs => preserves_deref _ s hs

theorem preserves_pathPut {I : Ns LowerTree LowerInode → Prop} (path : LowerPath) :
    Preserves I (pathPut path : TreeOp Unit) :=
  .bind (.release _) fun _ => .release _

/-- Attributes other than the count are copied. -/
theorem preserves_copyFromOwn (copy : Attr → Attr → Attr)
    (hcopy : ∀ a b, (copy a b).nlink = a.nlink) (u : ℕ) :
    Preserves (LinkInv super X) (copyFromOwn (treeVfs super) copy u) := by
  intro s hs
  rw [yields_copyFromOwn]
  exact fun x _ => hs.touch_other u (hcopy _ _)

/-- A new inode copies the count of its lower inode. -/
theorem preserves_wrapfsInterpose (d : ℕ) (path : LowerPath) (c : IgetCalls) :
    Preserves (LinkInv super X) (wrapfsInterpose (treeVfs super) d path c) :=
  fun _ hs => (links_wrapfsInterpose hs d path c).mono fun _ _ hs' => hs'.1.inv

theorem preserves_wrapfsSetLowerPath (d : ℕ) (path : LowerPath) :
    Preserves (LinkInv super X) (wrapfsSetLowerPath d path : TreeOp Unit) :=
  .bind (preserves_dentryAt d) fun _ => .bind (preserves_deref _) fun _ =>
    preserves_changeCore (fun _ => rfl) fun _ => rfl

theorem preserves_wrapfsPutResetLowerPath (d : ℕ) :
    Preserves (LinkInv super X) (wrapfsPutResetLowerPath d : TreeOp Unit) := by
  refine .bind (preserves_dentryAt d) fun _ => .bind (preserves_deref _) fun path =>
    .bind (preserves_changeCore (fun _ => rfl) fun _ => rfl) fun _ => ?_
  cases path with
  | none => exact .pure _
  | some path => exact preserves_pathPut path

theorem preserves_lookupPositive (d : ℕ) (path : LowerPath) (c : IgetCalls) :
    Preserves (LinkInv super X) (lookupPositive (treeVfs super) d path c) := by
  refine .bind (.bind (.acquire _) fun _ => .acquire _) fun _ =>
    .bind (preserves_wrapfsSetLowerPath d path) fun _ =>
      .bind (preserves_wrapfsInterpose d path c) fun err => ?_
  cases err with
  | none => exact .pure _
  | some err => exact .bind (preserves_wrapfsPutResetLowerPath d) fun _ => .pure _

theorem preserves_setupLower (d lower mnt : ℕ) (flags : LookupFlags) :
    Preserves (LinkInv super X) (setupLower d lower mnt flags : TreeOp (Option Errno)) :=
  .bind (.acquire _) fun _ => .bind (preserves_wrapfsSetLowerPath d _) fun _ => .pure _

/-- A new negative lower dentry has no inode. -/
theorem LinkInv.allocLower (h : LinkInv super ∅ s) (dir : ℕ) (name : String) :
    LinkInv super ∅ (s.withCore (s.setLow (s.low.dAllocNegative dir name).2)) := by
  refine h.setLow le_rfl (fun l x hx hsb => ?_) fun _ _ _ => rfl
  by_cases hl : l = s.low.next
  · subst hl
    simp [dAllocNegative] at hx
  · have hx : ((s.low.set s.low.next ⟨name, dir, none, true, false⟩).dentries l).inode = some x := hx
    rw [s.low.set_of_ne hl] at hx
    exact h.lower l x hx hsb

theorem preserves_lookupNegative (d : ℕ) (name : String) (flags : LookupFlags) (q : LowerPath)
    (lowerAlloc : Bool) :
    Preserves (LinkInv super ∅) (lookupNegative (treeVfs super) d name flags q lowerAlloc) := by
  refine .look_bind fun s hs => ?_
  cases (treeVfs super).dLookup s.low q.dentry name with
  | some lower =>
      exact Preserves.bind (.acquire _) (fun _ => preserves_setupLower d lower q.mnt flags) s hs
  | none =>
      simp only [yields_ite, yields_bind, yields_changeCore, yields_acquire, yields_pure]
      split
      · exact preserves_setupLower d _ q.mnt flags _ (hs.allocLower q.dentry name)
      · exact hs

theorem preserves_wrapfsLookupLower (d : ℕ) (flags : LookupFlags) (q : LowerPath)
    (c : LookupCalls) :
    Preserves (LinkInv super ∅) (wrapfsLookupLower (treeVfs super) d flags q c) := by
  refine .bind (preserves_dentryAt d) fun e =>
    .bind (preserves_changeCore (fun _ => rfl) fun _ => rfl) fun _ => .ite (.pure _) ?_
  refine .look_bind fun s hs => ?_
  simp only [yields_bind, yields_changeCore]
  -- a path lookup does not change the lower tree
  have hlow : ((treeVfs super).vfsPathLookup s.low q e.name c.pathLookup).2 = s.low := by
    rcases vfsPathLookup_cases s.low q e.name c.pathLookup with hcall | ⟨err, -, hcall⟩
    · exact congrArg Prod.snd hcall
    · exact congrArg Prod.snd hcall
  have hs : LinkInv super ∅ (s.withCore (s.setLow
      ((treeVfs super).vfsPathLookup s.low q e.name c.pathLookup).2)) := hs.withCore hlow rfl
  cases ((treeVfs super).vfsPathLookup s.low q e.name c.pathLookup).1 with
  | ok path => exact preserves_lookupPositive d path c.iget _ hs
  | error err => exact Preserves.ite (.pure _) (preserves_lookupNegative d e.name flags q _) _ hs

theorem preserves_copyLookupAttrs (d parent : ℕ) :
    Preserves (LinkInv super X) (copyLookupAttrs (treeVfs super) d parent) := by
  refine .bind (preserves_dentryAt d) fun e => .bind ?_ fun _ =>
    .bind (preserves_dentryAt parent) fun _ => .bind (preserves_deref _) fun _ =>
      preserves_copyFromOwn fsstackCopyAttrAtime (fun _ _ => rfl) _
  cases e.inode with
  | none => exact .pure _
  | some u => exact preserves_copyFromOwn fsstackCopyAttrTimes (fun _ _ => rfl) u

theorem preserves_lookupUnderParent (d parent : ℕ) (flags : LookupFlags) (q : LowerPath)
    (c : LookupCalls) :
    Preserves (LinkInv super ∅) (lookupUnderParent (treeVfs super) d parent flags q c) := by
  refine .bind ?_ fun err => ?_
  · refine .ite (.bind (preserves_dentryAt d) fun _ =>
      .bind (preserves_changeCore (fun _ => rfl) fun _ => rfl) fun _ => .pure _) (.pure _)
  · cases err with
    | some err => exact .pure _
    | none =>
        refine .bind (preserves_wrapfsLookupLower d flags q c) fun err => ?_
        cases err with
        | some err => exact .pure _
        | none => exact .bind (preserves_copyLookupAttrs d parent) fun _ => .pure _

/-- **A lookup** keeps the counts, whatever fails. -/
theorem preserves_wrapfsLookup (d : ℕ) (flags : LookupFlags) (c : LookupCalls) :
    Preserves (LinkInv super ∅) (wrapfsLookup (treeVfs super) d (some flags) c) := by
  intro s hs
  simp only [wrapfsLookup, yields_bind, yields_dentryAt, yields_acquire,
    yields_wrapfsGetLowerPath, yields_wrapfsPutLowerPath, yields_release, yields_pure]
  intro e _ path _
  exact preserves_lookupUnderParent d e.parent flags path c s hs

/-- **The walk to the last component** keeps the counts. -/
theorem preserves_walkTo (parent : ℕ) (name : String) (flags : LookupFlags) (c : WalkCalls) :
    Preserves (LinkInv super ∅) (walkTo super parent name flags c) := by
  refine .look_bind fun s hs => ?_
  cases s.child parent name with
  | some d => exact Preserves.pure _ s hs
  | none =>
      refine Preserves.ite (.bind (.look_bind fun t ht => ?_) fun d => ?_) (.pure _) s hs
      · simp only [yields_bind, yields_changeCore, yields_pure]
        exact ht.withCore rfl rfl
      · refine .bind (preserves_wrapfsLookup d flags c.lookup) fun err => ?_
        cases err with
        | some err => exact .pure _
        | none => exact .pure _

/-! ## Making a file -/

/-- The inodes whose lower counts `mkdir` changes: the directory. -/
def parentCounted (kind : NewKind) (x : LowerInode) : Set LowerInode := {z | kind = .mkdir ∧ z = x}

/-- Only a `mkdir` changes the count of the parent. -/
theorem LinkInv.of_parentCounted {kind : NewKind} {x : LowerInode}
    (h : LinkInv super (parentCounted kind x) s) (hkind : kind ≠ .mkdir) : LinkInv super ∅ s :=
  ⟨h.wf, h.lower, h.upper, fun u z hu _ => h.counts u z hu fun hz => hkind hz.1⟩

/-- A new inode has a new number, so that no upper inode has it as lower inode. -/
theorem LinkInv.created (h : LinkInv super ∅ s) (kind : NewKind) (x : LowerInode) (l : ℕ) :
    LinkInv super (parentCounted kind x) (s.withCore (s.setLow
      ({ s.low.instantiate l (s.low.newInode kind x) with
        nextIno := s.low.nextIno + 1 }.countNew kind x (s.low.newInode kind x)))) := by
  set y := s.low.newInode kind x
  set t : LowerTree := { s.low.instantiate l y with nextIno := s.low.nextIno + 1 } with ht
  obtain ⟨a, hcount⟩ := recount_countNew t kind x y
  refine h.setLow ?_ (fun l' z hz hsb => ?_) fun z hino hz => ?_
  · rw [hcount]
    exact Nat.le_succ _
  · rw [hcount] at hz ⊢
    show z.ino < s.low.nextIno + 1
    have hz : ((s.low.instantiate l y).dentries l').inode = some z := hz
    by_cases hl : l' = l
    · subst hl
      rw [instantiate, set_self] at hz
      cases hz
      exact Nat.lt_succ_self _
    · rw [instantiate, s.low.set_of_ne hl] at hz
      exact (h.lower l' z hz hsb).trans (Nat.lt_succ_self _)
  · refine t.nlink_countNew_of_ne (fun heq => ?_) fun hkind heq => hz ⟨hkind, heq⟩
    rw [heq] at hino
    exact Nat.lt_irrefl _ hino

/-- A file gets another name. -/
theorem LinkInv.linked (h : LinkInv super ∅ s) {old : ℕ} {x : LowerInode}
    (hx : (s.low.dentries old).inode = some x) (hsb : x.sb = super) (l : ℕ) :
    LinkInv super {x} (s.withCore (s.setLow
      ((s.low.instantiate l x).setNlink x fun n => n + 1))) := by
  refine h.setLow le_rfl (fun l' z hz hzsb => ?_) fun z _ hz => ?_
  · have hz : ((s.low.instantiate l x).dentries l').inode = some z := hz
    by_cases hl : l' = l
    · subst hl
      rw [instantiate, set_self] at hz
      cases hz
      exact h.lower old x hx hsb
    · rw [instantiate, s.low.set_of_ne hl] at hz
      exact h.lower l' z hz hzsb
  · exact (s.low.instantiate l x).nlink_setNlink_of_ne hz _

/-- `finish` copies the count of the directory if it has to. -/
theorem links_newUnderWrite (h : LinkInv super ∅ s) {kind : NewKind} {finish : TreeOp Unit}
    {dir d parent : ℕ} {p : LowerPath} {c : NewCalls} {x : LowerInode}
    (hx : (s.low.dentries parent).inode = some x) (hsb : x.sb = super)
    (hdir : s.hash.lowerOf dir = some x) (higet : kind = .mkdir → c.iget = ⟨true, true⟩)
    (hfinish : ∀ t : Ns LowerTree LowerInode, LinkInv super (parentCounted kind x) t →
      t.hash.lowerOf dir = some x → Yields finish t fun _ s' => LinkInv super ∅ s') :
    Yields (newUnderWrite (treeVfs super) kind finish dir d p parent c) s fun _ s' =>
      LinkInv super ∅ s' := by
  simp only [newUnderWrite, yields_bind, yields_look, yields_changeCore]
  rcases vfsNew_cases kind s.low ((treeVfs super).dInode s.low parent) p.dentry c.vfs with
    ⟨err, hcall⟩ | ⟨x', t, hx', ht, -, hcall⟩
  · rw [show (treeVfs super).vfsNew kind s.low _ p.dentry c.vfs = (some err, s.low) from hcall]
    simp only [yields_pure]
    exact h.withCore rfl rfl
  · obtain rfl : x = x' := Option.some.inj (hx.symm.trans hx')
    rw [show (treeVfs super).vfsNew kind s.low _ p.dentry c.vfs = (none, t) from hcall]
    have hmade := h.created kind x p.dentry
    have hinode : (t.dentries p.dentry).inode = some (s.low.newInode kind x) := by
      obtain ⟨a, hcount⟩ := recount_countNew { s.low.instantiate p.dentry (s.low.newInode kind x)
        with nextIno := s.low.nextIno + 1 } kind x (s.low.newInode kind x)
      rw [ht, hcount]
      show ((s.low.instantiate p.dentry _).dentries p.dentry).inode = _
      rw [instantiate, set_self]
    rw [← ht] at hmade
    simp only [yields_bind]
    refine (links_wrapfsInterpose hmade d p c.iget).mono ?_
    rintro err s' ⟨hs', herr⟩
    cases err with
    | some err =>
        rw [yields_pure]
        -- only the count of a directory can be missing, and for `mkdir` all is granted
        have hkind : kind ≠ .mkdir := by
          intro hkind
          cases herr _ hinode hsb (Or.inl (higet hkind))
        exact hs'.inv.of_parentCounted hkind
    | none =>
        simp only [yields_bind, yields_copyFromOwn, yields_look, yields_copyFrom, yields_pure]
        intro y _ z _
        refine hfinish _ ((hs'.inv.touch_other dir ?_).touch_other dir ?_) (hs'.lowerOf dir x hdir)
        · rfl
        · rfl

/-- The lower inode of a directory whose entry is looked at. -/
theorem MirrorInv.lowerOf_parent (h : MirrorInv super lroot A s.toCore) {parent dir : ℕ}
    {q : LowerPath} (hinode : s.inodeOf parent = some dir)
    (hq : ∃ ep, s.dentries parent = some ep ∧ ep.hashed = true ∧ ep.fsdata = some (some q)) :
    ∃ x, s.hash.lowerOf dir = some x ∧ (s.low.dentries q.dentry).inode = some x ∧
      x.sb = super := by
  obtain ⟨ep, hep, -, hq⟩ := hq
  rw [Core.inodeOf, hep, Option.bind_some] at hinode
  obtain ⟨q', x, hq', hlower, hx, hsb⟩ := (h.attached parent ep hep).2 dir hinode
  rw [hq] at hq'
  cases hq'
  exact ⟨x, hlower, hx, hsb⟩

section Make

variable {q p : LowerPath} {d dir : ℕ} {e : UpperDentry}

/-- Under the locks: the lower directory that is locked is that of the parent. -/
theorem links_underLockedParent (hm : MirrorInv super lroot A s.toCore) (h : LinkInv super ∅ s)
    (hpend : PendingAt s.toCore q d e p) (hinode : s.inodeOf e.parent = some dir)
    (wantWrite : Option Errno) {body : LowerPath → ℕ → TreeOp (Option Errno)}
    (hbody : ∀ x parent, (s.low.dentries parent).inode = some x → x.sb = super →
      s.hash.lowerOf dir = some x → Keeps (LinkInv super ∅) (body p parent) s) :
    Keeps (LinkInv super ∅) (underLockedParent (treeVfs super) d wantWrite body) s := by
  simp only [Keeps, underLockedParent, yields_bind, yields_wrapfsGetLowerPath, yields_lockParent,
    yields_withWrite, yields_unlockDir, yields_wrapfsPutLowerPath, yields_pure]
  intro path hpath
  obtain rfl := hpend.stored hpath
  obtain ⟨x, hdir, hx, hsb⟩ := hm.lowerOf_parent hinode hpend.parent
  refine ⟨fun _ _ => h, fun _ => hbody x _ ?_ hsb hdir⟩
  rw [show (treeVfs super).dParent s.low path.dentry = q.dentry from hpend.entry.2.1]
  exact hx

/-- **Making a file** keeps the counts, unless it is a `mkdir` that gets no inode. -/
theorem links_wrapfsNew (hm : MirrorInv super lroot A s.toCore) (h : LinkInv super ∅ s)
    (hpend : PendingAt s.toCore q d e p) (hinode : s.inodeOf e.parent = some dir)
    {kind : NewKind} {finish : TreeOp Unit} {c : NewCalls}
    (higet : kind = .mkdir → c.iget = ⟨true, true⟩)
    (hfinish : ∀ x (t : Ns LowerTree LowerInode), LinkInv super (parentCounted kind x) t →
      t.hash.lowerOf dir = some x → Yields finish t fun _ s' => LinkInv super ∅ s') :
    Keeps (LinkInv super ∅) (wrapfsNew (treeVfs super) kind finish dir d c) s :=
  links_underLockedParent hm h hpend hinode c.wantWrite fun x _ hx hsb hdir =>
    links_newUnderWrite h hx hsb hdir higet (hfinish x)

/-- **Making a file** keeps the counts, unless `wrapfs_mkdir` fails after the lower call. -/
theorem links_wrapfsMake (hm : MirrorInv super lroot A s.toCore) (h : LinkInv super ∅ s)
    (hpend : PendingAt s.toCore q d e p) (hinode : s.inodeOf e.parent = some dir)
    (kind : NewKind) (nd : Option LookupFlags) {c : NewCalls}
    (higet : kind = .mkdir → c.iget = ⟨true, true⟩) :
    Keeps (LinkInv super ∅) (wrapfsMake super kind nd dir d c) s := by
  cases kind with
  | create =>
      refine links_underLockedParent hm h hpend hinode c.wantWrite fun x _ hx hsb hdir => ?_
      rw [Keeps, yields_bind, yields_deref]
      refine fun _ _ => links_newUnderWrite h hx hsb hdir (fun h => by cases h) fun t ht _ => ?_
      rw [yields_pure]
      exact ht.of_parentCounted (by decide)
  | symlink =>
      refine links_wrapfsNew hm h hpend hinode (fun h => by cases h) fun x t ht _ => ?_
      rw [yields_pure]
      exact ht.of_parentCounted (by decide)
  | mknod =>
      refine links_wrapfsNew hm h hpend hinode (fun h => by cases h) fun x t ht _ => ?_
      rw [yields_pure]
      exact ht.of_parentCounted (by decide)
  | mkdir =>
      refine links_wrapfsNew hm h hpend hinode higet fun x t ht hdir => ?_
      rw [yields_copyFromOwn]
      intro y hy
      obtain rfl : x = y := Option.some.inj (hdir.symm.trans hy)
      exact ht.touch hdir (fun z hz hne => absurd hz.2 hne) rfl

/-- **`wrapfs_link`** copies the count of the file, and cannot fail after the lower call:
`wrapfs_iget` finds the inode. -/
theorem links_wrapfsLink (hm : MirrorInv super lroot A s.toCore) (h : LinkInv super ∅ s)
    (hpend : PendingAt s.toCore q d e p) (old dir : ℕ) (c : NewCalls) :
    Keeps (LinkInv super ∅) (wrapfsLink (treeVfs super) old dir d c) s := by
  simp only [Keeps, wrapfsLink, yields_bind, yields_dentryAt, yields_deref, yields_look,
    yields_wrapfsGetLowerPath, yields_lockParent, yields_withWrite, yields_unlockDir,
    yields_wrapfsPutLowerPath, yields_pure]
  intro eOld hOld uOld huOld oldPath hOldPath path hpath
  obtain rfl := hpend.stored hpath
  refine ⟨fun _ _ => h, fun _ => ?_⟩
  simp only [linkUnderWrite, yields_bind, yields_look, yields_changeCore]
  rcases vfsLink_cases s.low oldPath.dentry
    ((treeVfs super).dInode s.low ((treeVfs super).dParent s.low path.dentry)) path.dentry c.vfs
    with ⟨err, hcall⟩ | ⟨x, t, hx, ht, -, hcall⟩
  · rw [show (treeVfs super).vfsLink s.low oldPath.dentry _ path.dentry c.vfs =
      (some err, s.low) from hcall]
    simp only [yields_pure]
    exact h.withCore rfl rfl
  · rw [show (treeVfs super).vfsLink s.low oldPath.dentry _ path.dentry c.vfs = (none, t)
      from hcall]
    obtain ⟨e', he', hfs⟩ := Core.stored_eq_some.mp hOldPath
    obtain rfl : eOld = e' := Option.some.inj (hOld.symm.trans he')
    obtain ⟨p', x', hp', hlower, hx', hsb⟩ := (hm.attached old eOld hOld).2 uOld huOld
    rw [hfs] at hp'
    cases hp'
    obtain rfl : x = x' := Option.some.inj (hx.symm.trans hx')
    have hlinked : LinkInv super {x} (s.withCore (s.setLow t)) := by
      rw [ht]
      exact h.linked hx hsb path.dentry
    have hinode : (t.dentries path.dentry).inode = some x := by
      rw [ht]
      show ((s.low.instantiate path.dentry x).dentries path.dentry).inode = some x
      rw [instantiate, set_self]
    have hsome : ((treeVfs super).dInode t path.dentry).isNone ≠ true := by
      rw [show (treeVfs super).dInode t path.dentry = some x from hinode]
      exact Bool.false_ne_true
    simp only [if_neg hsome, yields_bind]
    refine (links_wrapfsInterpose hlinked d path c.iget).mono ?_
    rintro err s' ⟨hs', herr⟩
    obtain rfl : err = none := herr x hinode hsb (Or.inr ⟨uOld, hlower⟩)
    simp only [yields_bind, yields_copyFrom, yields_copyFromOwn, yields_dentryAt, yields_deref,
      yields_touchInode, yields_pure]
    intro y _ z _ x' hx' e₁ _ u _
    have huOld' : s'.hash.lowerOf uOld = some x := hs'.lowerOf uOld x hlower
    obtain rfl : x = x' := Option.some.inj (huOld'.symm.trans hx')
    refine LinkInv.touch_other ?_ u rfl
    refine LinkInv.touch (X := {x}) (x := x) ?_ ?_ (fun w hw hne => absurd hw hne) rfl
    · refine LinkInv.touch_other ?_ dir rfl
      exact hs'.inv.touch_other dir rfl
    · exact huOld'

end Make

/-! ## Removing a name -/

section Remove

variable {p : LowerPath} {d u : ℕ} {e : UpperDentry} {x : LowerInode}

/-- Changing a dentry but not its inode leaves every dentry its inode. -/
theorem inode_set {t : LowerTree} {l : ℕ} {v : LowerDentry}
    (hv : v.inode = (t.dentries l).inode) (l' : ℕ) :
    ((t.set l v).dentries l').inode = (t.dentries l').inode := by
  by_cases hl : l' = l
  · subst hl
    rw [set_self, hv]
  · rw [t.set_of_ne hl]

/-- `wrapfs_unlink` copies the count of the file. -/
theorem links_unlinkDeleted (h : LinkInv super {x} s) (hd : s.dentries d = some e)
    (hu : e.inode = some u) (hlower : s.hash.lowerOf u = some x) (dir : ℕ)
    (lowerDir : Option LowerInode) :
    Yields (unlinkDeleted (treeVfs super) dir d lowerDir) s fun _ s' => LinkInv super ∅ s' := by
  simp only [unlinkDeleted, dDrop, yields_bind, yields_copyFrom, yields_dentryAt, yields_deref,
    yields_copyFromOwn, yields_look, yields_touchInode, yields_changeCore]
  intro y _ z _ e₁ he₁ u₁ hu₁ x₁ hx₁ e₂ _
  obtain rfl : e = e₁ := Option.some.inj (hd.symm.trans he₁)
  obtain rfl : u = u₁ := Option.some.inj (hu.symm.trans hu₁)
  obtain rfl : x = x₁ := Option.some.inj (hlower.symm.trans hx₁)
  refine LinkInv.withCore ?_ rfl rfl
  refine LinkInv.touch_other ?_ u rfl
  refine LinkInv.touch (X := {x}) (x := x) ?_ ?_ (fun w hw hne => absurd hw hne) rfl
  · refine LinkInv.touch_other ?_ dir rfl
    exact h.touch_other dir rfl
  · exact hlower

/-- **`wrapfs_unlink`.** -/
theorem links_wrapfsUnlink (hm : MirrorInv super lroot A s.toCore) (h : LinkInv super ∅ s)
    (hd : HashedAt s.toCore d e p) (dir : ℕ) (c : RemoveCalls) :
    Keeps (LinkInv super ∅) (wrapfsUnlink (treeVfs super) dir d c) s := by
  simp only [Keeps, wrapfsUnlink, yields_bind, yields_wrapfsLowerInode, yields_wrapfsGetLowerPath,
    yields_acquire, yields_lockParent, yields_withWrite, yields_unlockDir, yields_release,
    yields_wrapfsPutLowerPath, yields_pure]
  intro inode _ path hpath
  obtain rfl := hd.stored hpath
  refine ⟨fun _ _ => h, fun _ => ?_⟩
  obtain ⟨u, hu⟩ := Option.ne_none_iff_exists'.mp ((hm.attached d e hd.dentry).1 hd.hashed)
  obtain ⟨x, hlower, hx⟩ := hm.lowerOf_of_path hd.dentry hu hd.path
  have hdeleted : ∀ t, LinkInv super {x} (s.withCore (s.setLow t)) → Yields (do
      unlinkDeleted (treeVfs super) dir d inode.lower
      pure none : TreeOp (Option Errno)) (s.withCore (s.setLow t)) fun _ s' =>
        LinkInv super ∅ s' := by
    intro t ht
    simp only [yields_bind, yields_pure]
    exact links_unlinkDeleted ht hd.dentry hu hlower dir inode.lower
  simp only [unlinkUnderWrite, yields_bind, yields_look, yields_changeCore]
  rcases vfsUnlink_cases s.low inode.lower path.dentry c.vfs c.silly with
    ⟨err, hcall⟩ | ⟨x', t, hx', ht, -, hcall⟩
  · rw [show (treeVfs super).vfsUnlink s.low inode.lower path.dentry c.vfs c.silly =
      (some err, s.low) from hcall]
    have hs : LinkInv super ∅ (s.withCore (s.setLow s.low)) := h.withCore rfl rfl
    split
    · rw [yields_pure]
      exact hs
    · exact hdeleted s.low (hs.mono (Set.empty_subset _))
  · obtain rfl : x = x' := Option.some.inj (hx.symm.trans hx')
    rw [show (treeVfs super).vfsUnlink s.low inode.lower path.dentry c.vfs c.silly = (none, t)
      from hcall]
    refine hdeleted t ?_
    rcases ht with rfl | ⟨name, rfl⟩
    · refine h.setLow_of_inodes (recount_setNlink _ _ _) rfl (inode_set rfl) fun z hz => ?_
      exact (s.low.unhash path.dentry).nlink_setNlink_of_ne hz _
    · exact h.setLow_of_inodes (recount_refl _) rfl (inode_set rfl) fun z _ => rfl

/-- The counts `vfs_rmdir` leaves. -/
theorem LinkInv.removed (h : LinkInv super ∅ s) (x y : LowerInode) (l : ℕ) :
    LinkInv super {x, y} (s.withCore (s.setLow
      (((s.low.unhash l).setNlink x fun _ => 0).dropDir (some y)))) := by
  refine h.setLow_of_inodes ((recount_setNlink _ _ _).trans (recount_dropDir _ _)) rfl
    (inode_set rfl) fun z hz => ?_
  rw [Set.mem_insert_iff, Set.mem_singleton_iff, not_or] at hz
  rw [nlink_dropDir_of_ne _ fun heq => hz.2 (Option.some.inj heq).symm,
    nlink_setNlink_of_ne _ hz.1]
  rfl

/-- **`wrapfs_rmdir`** clears the count of the directory removed and copies that of its
parent. -/
theorem links_wrapfsRmdir (hm : MirrorInv super lroot A s.toCore) (h : LinkInv super ∅ s)
    (hd : HashedAt s.toCore d e p) {dir : ℕ} (hinode : s.inodeOf e.parent = some dir)
    (c : RemoveCalls) :
    Keeps (LinkInv super ∅) (wrapfsRmdir (treeVfs super) dir d c) s := by
  simp only [Keeps, wrapfsRmdir, yields_bind, yields_wrapfsGetLowerPath, yields_lockParent,
    yields_withWrite, yields_unlockDir, yields_wrapfsPutLowerPath, yields_pure]
  intro path hpath
  obtain rfl := hd.stored hpath
  refine ⟨fun _ _ => h, fun _ => ?_⟩
  obtain ⟨ep, q, -, hep, hephash, hq, hentry, -⟩ := hd.lower hm
  obtain ⟨y, hdir, hy, -⟩ := hm.lowerOf_parent hinode ⟨ep, hep, hephash, hq⟩
  obtain ⟨u, hu⟩ := Option.ne_none_iff_exists'.mp ((hm.attached d e hd.dentry).1 hd.hashed)
  obtain ⟨x, hlower, hx⟩ := hm.lowerOf_of_path hd.dentry hu hd.path
  rw [show (treeVfs super).dParent s.low path.dentry = q.dentry from hentry.2.1]
  simp only [rmdirUnderWrite, yields_bind, yields_look, yields_changeCore]
  rcases vfsRmdir_cases s.low ((treeVfs super).dInode s.low q.dentry) path.dentry c.vfs with
    ⟨err, hcall⟩ | ⟨x', t, hx', ht, -, -, hcall⟩
  · rw [show (treeVfs super).vfsRmdir s.low _ path.dentry c.vfs = (some err, s.low) from hcall]
    simp only [yields_pure]
    exact h.withCore rfl rfl
  · obtain rfl : x = x' := Option.some.inj (hx.symm.trans hx')
    rw [show (treeVfs super).vfsRmdir s.low _ path.dentry c.vfs = (none, t) from hcall]
    rw [show (treeVfs super).dInode s.low q.dentry = some y from hy] at ht
    have hremoved := h.removed x y path.dentry
    have hzero : (t.attr x).nlink = 0 := by
      rw [ht]
      exact nlink_dropDir_of_zero _ (nlink_setNlink_self _ _ _)
    have hparent : (treeVfs super).dInode t q.dentry = some y := by
      have hsame : ((s.low.unhash path.dentry).dentries q.dentry).inode =
          (s.low.dentries q.dentry).inode := by
        refine inode_set ?_ q.dentry
        rfl
      rw [ht]
      exact hsame.trans hy
    rw [← ht] at hremoved
    simp only [dDrop, yields_bind, yields_dentryAt, yields_changeCore, hparent]
    intro e₁ he₁ e₂ he₂
    obtain rfl : e = e₁ := Option.some.inj (hd.dentry.symm.trans he₁)
    obtain rfl : { e with hashed := false } = e₂ :=
      Option.some.inj ((Core.setDentry_self _ _ _).symm.trans he₂)
    rw [show ({ e with hashed := false } : UpperDentry).inode = some u from hu]
    simp only [yields_touchInode, yields_copyFrom, yields_pure]
    intro y₁ hy₁ y₂ hy₂ y₃ hy₃
    cases hy₃
    refine LinkInv.touch (X := {y}) (x := y) ?_ ?_ (fun w hw hne => absurd hw hne) rfl
    · refine LinkInv.touch_other ?_ dir rfl
      refine LinkInv.touch_other ?_ dir rfl
      refine LinkInv.touch (X := {x, y}) (x := x) ?_ ?_ ?_ hzero.symm
      · exact hremoved.withCore rfl rfl
      · exact hlower
      · exact fun w hw hne => Set.mem_of_mem_insert_of_ne hw hne
    · exact hdir

end Remove

/-! ## Renaming -/

section Rename

variable {oldDir newDir : ℕ} {x y : LowerInode}

/-- The attributes of a directory are copied, its count among them. -/
theorem links_copyDirAttrs (h : LinkInv super X s) {dir : ℕ} (hdir : s.hash.lowerOf dir = some x)
    {Y : Set LowerInode} (hY : ∀ z ∈ X, z ≠ x → z ∈ Y) :
    Yields (copyDirAttrs (treeVfs super) dir (some x)) s fun _ s' =>
      LinkInv super Y s' ∧ s'.hash = s.hash := by
  simp only [copyDirAttrs, yields_bind, yields_copyFrom]
  intro x₁ hx₁ x₂ hx₂
  cases hx₁
  refine ⟨LinkInv.touch_other ?_ dir rfl, rfl⟩
  exact h.touch hdir hY rfl

/-- `wrapfs_rename` copies the counts of both directories. -/
theorem links_copyRenameAttrs (h : LinkInv super {x, y} s) (hold : s.hash.lowerOf oldDir = some x)
    (hnew : s.hash.lowerOf newDir = some y) :
    Yields (copyRenameAttrs (treeVfs super) oldDir newDir (some x) (some y)) s fun _ s' =>
      LinkInv super ∅ s' := by
  simp only [copyRenameAttrs, yields_bind, yields_ite, yields_pure]
  by_cases hdirs : newDir = oldDir
  · -- it is one directory, and copied once
    obtain rfl : x = y := Option.some.inj (hold.symm.trans (hdirs ▸ hnew))
    refine (links_copyDirAttrs h hnew (Y := ∅) fun z hz hne => ?_).mono fun _ s' hs' => ?_
    · rw [Set.pair_eq_singleton] at hz
      exact absurd hz hne
    · rw [if_neg (not_not.mpr hdirs)]
      exact hs'.1
  · refine (links_copyDirAttrs h hnew (Y := {x}) fun z hz hne => ?_).mono fun _ t ht => ?_
    · rcases hz with hz | hz
      · exact hz
      · exact absurd hz hne
    · rw [if_pos hdirs]
      obtain ⟨ht, hhash⟩ := ht
      have hold : t.hash.lowerOf oldDir = some x := by rw [hhash, hold]
      exact (links_copyDirAttrs ht hold fun z hz hne => absurd hz hne).mono fun _ _ hs' => hs'.1

/-- So does a rename. -/
theorem inode_dMove (t : LowerTree) (old new l : ℕ) :
    ((t.dMove old new).dentries l).inode = (t.dentries l).inode := by
  unfold LowerTree.dMove
  by_cases hl : l = old
  · subst hl
    rw [set_self]
  · rw [set_of_ne _ hl]
    refine inode_set ?_ l
    rfl

/-- The counts a rename that replaces nothing leaves. -/
theorem LinkInv.renamed (h : LinkInv super ∅ s) (z x y : LowerInode) (old new : ℕ) :
    LinkInv super {x, y} (s.withCore (s.setLow
      ((s.low.dMove old new).countRename z (some x) (some y) none))) := by
  refine h.setLow_of_inodes (recount_countRename _ _ _ _ _) rfl (inode_dMove s.low old new)
    fun w hw => ?_
  rw [Set.mem_insert_iff, Set.mem_singleton_iff, not_or] at hw
  exact nlink_countRename_of_ne _ (fun heq => hw.1 (Option.some.inj heq).symm)
    fun heq => hw.2 (Option.some.inj heq).symm

/-- **`wrapfs_rename`**, if it replaces no file. -/
theorem links_wrapfsRename (h : LinkInv super ∅ s) {old new lo ln : ℕ} {po pn : LowerPath}
    (ho : s.stored old = some po) (hn : s.stored new = some pn)
    (hlo : (s.low.dentries po.dentry).parent = lo) (hln : (s.low.dentries pn.dentry).parent = ln)
    (hx : (s.low.dentries lo).inode = some x) (hy : (s.low.dentries ln).inode = some y)
    (hold : s.hash.lowerOf oldDir = some x) (hnew : s.hash.lowerOf newDir = some y)
    (hreplace : ∀ z, (s.low.dentries pn.dentry).inode = some z →
      (s.low.dentries po.dentry).inode = some z) (c : RenameCalls) :
    Keeps (LinkInv super ∅) (wrapfsRename (treeVfs super) oldDir old newDir new c) s := by
  simp only [Keeps, wrapfsRename, yields_bind, yields_wrapfsGetLowerPath, yields_look,
    yields_acquire, yields_lockRename, yields_unlockRename, yields_release,
    yields_wrapfsPutLowerPath, yields_pure]
  intro po' ho' pn' hn'
  obtain rfl : po = po' := Option.some.inj (ho.symm.trans ho')
  obtain rfl : pn = pn' := Option.some.inj (hn.symm.trans hn')
  rw [show (treeVfs super).dParent s.low po.dentry = lo from hlo,
    show (treeVfs super).dParent s.low pn.dentry = ln from hln]
  generalize (if lo = ln then none else (treeVfs super).trap s.low lo ln) = trap
  simp only [renameLocked, yields_ite, yields_pure, yields_withWrite]
  split
  · exact h
  split
  · exact h
  refine ⟨fun _ _ => h, fun _ => ⟨fun _ _ => h, fun _ => ?_⟩⟩
  simp only [renameUnderWrite, yields_bind, yields_look, yields_changeCore]
  rcases vfsRename_cases s.low ((treeVfs super).dInode s.low lo) po.dentry
      ((treeVfs super).dInode s.low ln) pn.dentry c.vfs with
    ⟨err, hcall⟩ | ⟨-, hcall⟩ | ⟨z, t, hz, hne, -, ht, hcall⟩
  · rw [show (treeVfs super).vfsRename s.low _ po.dentry _ pn.dentry c.vfs = (some err, s.low)
      from hcall]
    simp only [yields_pure]
    exact h.withCore rfl rfl
  · rw [show (treeVfs super).vfsRename s.low _ po.dentry _ pn.dentry c.vfs = (none, s.low)
      from hcall]
    have hs : LinkInv super ∅ (s.withCore (s.setLow s.low)) := h.withCore rfl rfl
    simp only [yields_bind, yields_pure]
    rw [show (treeVfs super).dInode s.low lo = some x from hx,
      show (treeVfs super).dInode s.low ln = some y from hy]
    exact links_copyRenameAttrs (hs.mono (Set.empty_subset _)) hold hnew
  · rw [show (treeVfs super).vfsRename s.low _ po.dentry _ pn.dentry c.vfs = (none, t)
      from hcall]
    -- what the new name named would be the same file, and then nothing is done
    have hnone : (s.low.dentries pn.dentry).inode = none := by
      cases hw : (s.low.dentries pn.dentry).inode with
      | none => rfl
      | some w =>
          rw [hw] at hne
          exact absurd ((hreplace w hw).symm.trans hz) hne
    rw [hnone, show (treeVfs super).dInode s.low lo = some x from hx,
      show (treeVfs super).dInode s.low ln = some y from hy] at ht
    have hmoved : LinkInv super {x, y} (s.withCore (s.setLow t)) := by
      rw [ht]
      exact h.renamed z x y po.dentry pn.dentry
    have hinodes : ∀ l, (treeVfs super).dInode t l = (s.low.dentries l).inode := by
      intro l
      obtain ⟨a, hcount⟩ := recount_countRename (s.low.dMove po.dentry pn.dentry) z (some x)
        (some y) none
      rw [ht, hcount]
      exact inode_dMove s.low po.dentry pn.dentry l
    simp only [yields_bind, yields_pure, hinodes, hx, hy]
    exact links_copyRenameAttrs hmoved hold hnew

end Rename

/-! ## Whole runs -/

instance (t : LowerTree) (dir : ℕ) (name : String) (l : ℕ) :
    Decidable (LowerEntry t dir name l) :=
  inferInstanceAs (Decidable (_ ∧ _))

/-- The lower inodes that have the name `name` in the lower directory of dentry `parent`. -/
def Core.namedBelow (k : TreeCore) (parent : ℕ) (name : String) : List LowerInode :=
  match k.stored parent with
  | none => []
  | some q => (List.range k.low.next).filterMap fun l =>
      if LowerEntry k.low q.dentry name l then (k.low.dentries l).inode else none

/-- An inode has a name below when a lower entry of that name has the inode. -/
theorem Core.mem_namedBelow {k : TreeCore} {parent : ℕ} {name : String} {x : LowerInode} :
    x ∈ k.namedBelow parent name ↔ ∃ q l, k.stored parent = some q ∧ l < k.low.next ∧
      LowerEntry k.low q.dentry name l ∧ (k.low.dentries l).inode = some x := by
  unfold Core.namedBelow
  cases hq : k.stored parent with
  | none => simp
  | some q => simp [List.mem_filterMap]

/-- A rename replaces no other file, and `mkdir` does not fail for want of an inode. -/
def CountsRefreshed (k : TreeCore) : VfsAction → Prop
  | .make kind _ _ _ _ c => kind = .mkdir → c.iget = ⟨true, true⟩
  | .rename oldParent oldName newParent newName _ _ _ =>
      ∀ x ∈ k.namedBelow oldParent oldName, ∀ y ∈ k.namedBelow newParent newName, x = y
  | _ => True

/-- The walks before a rename put no inode under a name. -/
theorem WalkFrame.namedBelow {k k' : TreeCore} (h : WalkFrame k k')
    (hm : MirrorInv super lroot A k) {parent : ℕ} {q : LowerPath}
    (hdir : DirAt super k parent q) {name : String} {x : LowerInode}
    (hx : x ∈ k'.namedBelow parent name) : x ∈ k.namedBelow parent name := by
  obtain ⟨q', l, hq', -, hentry, hx⟩ := Core.mem_namedBelow.mp hx
  obtain ⟨e, _, he, -, hq, -⟩ := hdir
  obtain ⟨e', he', hq'⟩ := Core.stored_eq_some.mp hq'
  obtain rfl : e = e' := Option.some.inj ((h.dentries parent e he).symm.trans he')
  obtain rfl : q = q' := Option.some.inj (Option.some.inj (hq.symm.trans hq'))
  have hsame := h.low l x hx
  rw [LowerEntry, hsame] at hentry
  rw [hsame] at hx
  exact Core.mem_namedBelow.mpr
    ⟨q, l, Core.stored_eq_some.mpr ⟨e, he, hq⟩, hm.low_lt hx, hentry, hx⟩

section Step

variable {q : LowerPath}

/-- The lower inode of a dentry has its name below. -/
theorem Target.mem_namedBelow {k : TreeCore} (hm : MirrorInv super lroot A k) {d : ℕ}
    {e : UpperDentry} {p : LowerPath} (ht : Target A lroot k q d e p) {x : LowerInode}
    (hx : (k.low.dentries p.dentry).inode = some x) : x ∈ k.namedBelow e.parent e.name := by
  obtain ⟨ep, hep, -, hq⟩ := ht.parent
  exact Core.mem_namedBelow.mpr
    ⟨q, p.dentry, Core.stored_eq_some.mpr ⟨ep, hep, hq⟩, hm.low_lt hx, ht.entry, hx⟩

/-- **A rename** that replaces no other file keeps the counts. -/
theorem links_vfsRename (hm : MirrorInv super lroot A s.toCore) (h : LinkInv super ∅ s)
    {oldParent newParent old new : ℕ} {oldName newName : String}
    (hold : Entry s.toCore oldParent oldName old) (holdName : oldName ≠ "/")
    (hnew : Found s.toCore q newParent newName targetFlags new) (hnewName : newName ≠ "/")
    (hsame : ∀ x ∈ s.namedBelow oldParent oldName, ∀ y ∈ s.namedBelow newParent newName, x = y)
    (c : RenameCalls) :
    Keeps (LinkInv super ∅) (vfsRename super oldParent old newParent new c) s := by
  simp only [Keeps, vfsRename, yields_bind, yields_look, yields_ite, yields_pure]
  split
  · exact h
  · simp only [yields_deref]
    intro oldDir hoDir newDir hnDir
    obtain ⟨eo, po, ho, rfl, rfl⟩ := hm.hashedAt holdName hold
    obtain ⟨qo, hoTarget⟩ := hm.target_of_hashed ho
    obtain ⟨qn, en, pn, hnTarget, rfl, rfl, -⟩ := hm.target_of_found hnewName hnew
    obtain ⟨x, hox, hx, -⟩ := hm.lowerOf_parent hoDir hoTarget.parent
    obtain ⟨y, hny, hy, -⟩ := hm.lowerOf_parent hnDir hnTarget.parent
    obtain ⟨z, hz⟩ := hm.exists_inode ho.dentry ho.hashed ho.path
    refine (links_wrapfsRename h (Core.stored_eq_some.mpr ⟨eo, ho.dentry, ho.path⟩)
      (Core.stored_eq_some.mpr ⟨en, hnTarget.dentry, hnTarget.path⟩) hoTarget.entry.2.1
      hnTarget.entry.2.1 hx hy hox hny (fun w hw => ?_) c).mono ?_
    · obtain rfl : z = w :=
        hsame z (hoTarget.mem_namedBelow hm hz) w (hnTarget.mem_namedBelow hm hw)
      exact hz
    · intro err s' hs'
      cases err with
      | some err =>
          rw [yields_pure]
          exact hs'
      | none =>
          simp only [dMove, yields_bind, yields_dentryAt, yields_changeCore]
          exact fun _ _ _ _ => hs'.withCore rfl rfl

theorem preserves_dFree (d : ℕ) : Preserves (LinkInv super X) (dFree d : TreeOp Unit) := by
  refine .bind (preserves_dentryAt d) fun _ => .bind (.ite ?_ (.pure _)) fun _ =>
    preserves_changeCore (fun _ => rfl) fun _ => rfl
  exact .bind (preserves_wrapfsPutResetLowerPath d) fun _ => .bind (preserves_dentryAt d) fun _ =>
    preserves_changeCore (fun _ => rfl) fun _ => rfl

/-- **One system call or eviction** keeps the counts. -/
theorem links_vfsOp (hm : MirrorInv super lroot A s.toCore) (h : LinkInv super ∅ s)
    {a : VfsAction} (ha : CountsRefreshed s.toCore a) :
    Keeps (fun s => MirrorInv super lroot A s.toCore ∧ LinkInv super ∅ s) (vfsOp super a) s := by
  set I : Ns LowerTree LowerInode → Prop :=
    fun s => MirrorInv super lroot A s.toCore ∧ LinkInv super ∅ s
  have hI : WalkInv super lroot A I :=
    { mirror := And.left
      walk := fun hs hdir name flags c =>
        ((mirror_walkTo hs.1 hdir name flags c).mono fun _ _ hs' => hs'.inv).and
          (preserves_walkTo _ name flags c _ hs.2) }
  have hs : I s := ⟨hm, h⟩
  cases a with
  | lookup parent name flags w =>
      refine Keeps.guarded (I := I) hs fun hwalk => ?_
      obtain ⟨q, hdir⟩ := hm.dirAt hwalk.1
      exact hI.keeps_walkThen hs hdir name flags w fun d s' hs' _ _ => .pure hs' ()
  | make kind nd parent name w c =>
      refine Keeps.guarded (I := I) hs fun hwalk => ?_
      refine hI.make hs hwalk w (fun dir d => wrapfsMake super kind nd dir d c) ?_
      rintro q d dir e p s' hs' - hinode hpend rfl
      exact (mirror_wrapfsMake hs'.1 hpend kind nd dir c).and
        (links_wrapfsMake hs'.1 hs'.2 hpend hinode kind nd ha)
  | link old parent name w c =>
      refine Keeps.guarded (I := I) hs fun hwalk => ?_
      refine hI.make hs hwalk.1 w (fun dir d => wrapfsLink (treeVfs super) old dir d c) ?_
      intro q d dir e p s' hs' _ _ hpend _
      exact (mirror_wrapfsLink hs'.1 hpend old dir c).and
        (links_wrapfsLink hs'.1 hs'.2 hpend old dir c)
  | unlink parent name w c =>
      refine Keeps.guarded (I := I) hs fun hwalk => ?_
      refine hI.remove hs hwalk w false (fun dir d => wrapfsUnlink (treeVfs super) dir d c) ?_
      intro d dir e p x s' hs' _ hd _ hx hisDir
      exact (mirror_wrapfsUnlink hs'.1 hd (hs'.1.noChild_of_file hd hx hisDir) dir c).and
        (links_wrapfsUnlink hs'.1 hs'.2 hd dir c)
  | rmdir parent name w c =>
      refine Keeps.guarded (I := I) hs fun hwalk => ?_
      refine hI.remove hs hwalk w true (fun dir d => wrapfsRmdir (treeVfs super) dir d c) ?_
      rintro d dir e p x s' hs' hinode hd rfl - -
      exact (mirror_wrapfsRmdir hs'.1 hd dir c).and
        (links_wrapfsRmdir hs'.1 hs'.2 hd hinode c)
  | rename oldParent oldName newParent newName w w' c =>
      refine Keeps.guarded (I := I) hs fun hwalk => ?_
      obtain ⟨qo, hoDir⟩ := hm.dirAt hwalk.1.1
      obtain ⟨qn, hnDir⟩ := hm.dirAt hwalk.2.1
      refine hI.rename hs hwalk.1 hwalk.2 w w'
        (fun old new => vfsRename super oldParent old newParent new c) ?_
      intro q old new s' hs' hframe hold hnew
      refine (mirror_vfsRename hs'.1 hold hwalk.1.2 hnew hwalk.2.2 c).and
        (links_vfsRename hs'.1 hs'.2 hold hwalk.1.2 hnew hwalk.2.2 (fun x hx y hy => ?_) c)
      exact ha x (hframe.namedBelow hm hoDir hx) y (hframe.namedBelow hm hnDir hy)
  | evictDentry d =>
      refine (mirror_vfsOp hm (.evictDentry d)).and ?_
      exact Keeps.guarded h fun _ => preserves_dFree d s h
  | evictInode u =>
      refine (mirror_vfsOp hm (.evictInode u)).and ?_
      refine Keeps.guarded h fun _ => ?_
      rw [Keeps, yields_changeCore]
      exact h.setHash (h.wf.remove u) subset_rfl fun v x hv =>
        Or.inl (InodeHash.lowerOf_set_none hv).2

end Step

/-- The counts agree when the super block has been set up, with the attributes that
`wrapfs_iget` has copied to the root. -/
theorem Mountable.linkInv {t : LowerTree} {path : LowerPath} {root : LowerInode}
    (h : Mountable super t path root)
    (hinos : ∀ l x, (t.dentries l).inode = some x → x.sb = super → x.ino < t.nextIno)
    {attr : ℕ → Attr} (hroot : (attr 0).nlink = (t.attr root).nlink) :
    LinkInv super ∅ (mountedNs t path root attr) := by
  have honly : ∀ u x, (mountedNs t path root attr).hash.lowerOf u = some x →
      u = 0 ∧ x = root := by
    intro u x hu
    rcases InodeHash.lowerOf_insertNew_cases hu with hu | ⟨rfl, hx⟩
    · cases hu
    · cases hx
      exact ⟨rfl, rfl⟩
  obtain ⟨A, hm⟩ := h.mirrorInv attr
  refine ⟨hm.hash, hinos, fun u x hu => ?_, fun u x hu _ => ?_⟩
  · obtain ⟨-, rfl⟩ := honly u x hu
    exact hinos path.dentry x h.inode h.sb
  · obtain ⟨rfl, rfl⟩ := honly u x hu
    exact hroot

/-- **Link counts.**  On a mounted directory of a file system that gives out inode numbers
once, in every state that system calls and evictions reach, with any failures, if no rename
replaces another file and no `mkdir` fails for want of an inode, every live upper inode,
with a name or without, has the link count of its lower inode. -/
theorem link_counts_mirrored {t : LowerTree} {path : LowerPath} {root : LowerInode}
    (hmount : Mountable super t path root)
    (hinos : ∀ l x, (t.dentries l).inode = some x → x.sb = super → x.ino < t.nextIno)
    (attr : ℕ → Attr) (hroot : (attr 0).nlink = (t.attr root).nlink) {as : List VfsAction}
    (hrefreshed : Along (vfsStep super) (fun s a => CountsRefreshed s.toCore a)
      (mountedNs t path root attr) as)
    {s : Ns LowerTree LowerInode}
    (hrun : run (vfsStep super) (mountedNs t path root attr) as = .ok s) :
    ∀ u x, s.hash.lowerOf u = some x → (s.attr u).nlink = (s.low.attr x).nlink := by
  obtain ⟨A, hstart⟩ := hmount.mirrorInv attr
  have hinv : MirrorInv super path.dentry A s.toCore ∧ LinkInv super ∅ s :=
    Along.invariant (I := fun s => MirrorInv super path.dentry A s.toCore ∧ LinkInv super ∅ s)
      (fun _ _ _ ha hs hstep => (links_vfsOp hs.1 hs.2 ha).step hstep) hrefreshed
      ⟨hstart, hmount.linkInv hinos hroot⟩ hrun
  exact fun u x hu => hinv.2.counts u x hu (Set.notMem_empty x)

/-- The mount of the small file system. -/
def smallMountNs : Ns LowerTree LowerInode :=
  mountedNs smallTree ⟨1, 0⟩ smallDir fun _ => smallTree.attr smallDir

/-- A rename in the root, with all that it needs granted. -/
def renameInRoot (oldName newName : String) : VfsAction :=
  .rename 0 oldName 0 newName ⟨true, true, none, true, true, true⟩
    ⟨true, true, none, true, true, true⟩ ⟨none, none, none⟩

/-- `link_counts_mirrored` after a directory `a` and a file `b` are made and `b` is renamed
to `c`: the upper count of the root has become one more than it was, like the lower one. -/
theorem link_counts_mirrored_rename :
    ∃ s, run (vfsStep 0) smallMountNs
        [makeInRoot .mkdir "a", makeInRoot .create "b", renameInRoot "b" "c"] = .ok s ∧
      (s.attr 0).nlink = (smallTree.attr smallDir).nlink + 1 ∧
      ∀ u x, s.hash.lowerOf u = some x → (s.attr u).nlink = (s.low.attr x).nlink := by
  obtain ⟨s, hrun, hroot⟩ : ∃ s, run (vfsStep 0) smallMountNs
        [makeInRoot .mkdir "a", makeInRoot .create "b", renameInRoot "b" "c"] = .ok s ∧
      (s.attr 0).nlink = (smallTree.attr smallDir).nlink + 1 := ⟨_, rfl, rfl⟩
  refine ⟨s, hrun, hroot, link_counts_mirrored mountable_smallTree ?_
    (fun _ => smallTree.attr smallDir) rfl ?_ hrun⟩
  · intro l x hx _
    match l, hx with
    | 0, hx =>
        cases hx
        decide
    | 1, hx =>
        cases hx
        decide
  · -- when `b` is renamed nothing is called `c`
    obtain ⟨t, ht, hfree⟩ : ∃ t, run (vfsStep 0) smallMountNs
        [makeInRoot .mkdir "a", makeInRoot .create "b"] = .ok t ∧ t.namedBelow 0 "c" = [] :=
      ⟨_, rfl, rfl⟩
    refine ⟨fun _ => rfl, fun s₁ h₁ => ⟨nofun, fun s₂ h₂ =>
      ⟨fun x _ y hy => ?_, fun _ _ => trivial⟩⟩⟩
    have hrun₂ := (run_cons_of_ok h₁ _).trans (run_cons_of_ok h₂ [])
    obtain rfl : t = s₂ := Except.ok.inj (ht.symm.trans hrun₂)
    rw [hfree] at hy
    cases hy

/-- A file `a` replaces a file `b`.  The inode of `b` is live, and its link count is still
one; that of its lower inode is zero. -/
theorem replaced_count_stale :
    ∃ s x, run (vfsStep 0) smallMountNs
        [makeInRoot .create "a", makeInRoot .create "b", renameInRoot "a" "b"] = .ok s ∧
      s.hash.lowerOf 2 = some x ∧ (s.attr 2).nlink = 1 ∧ (s.low.attr x).nlink = 0 :=
  ⟨_, _, rfl, rfl, rfl, rfl⟩

end Wrapfs.Namespace
