import Mathlib
import Wrapfs.Namespace.MirrorChange

/-!
# The upper tree mirrors the lower tree

The invariant of `Wrapfs.Namespace.MirrorInv` holds in every state of the machine `vfsStep`, for
any system calls and evictions in any order and any failures.

## Rules for system calls

The arguments about whole system calls come first, and not for the mirror alone: a `WalkInv` is
any predicate that implies the mirror and that the walk to the last component keeps.  For each
system call there is a rule that says which operation runs then, on which dentries, and that the
call keeps the predicate if the operation does.  `Wrapfs.Namespace.LinkCounts` uses the same rules
for its own predicate, so that what the VFS guarantees to an operation is worked out here once: a
creation runs on a pending dentry over a negative lower one, a removal on a hashed dentry of the
right type, a rename on a hashed dentry and on what the second walk has found.

## What is assumed

`Mountable` is what is assumed of the lower file system when it is mounted: a tree of directory
entries, a directory of it to mount, and nothing of the same super block mounted anywhere in it.
Each part is needed.  A bind mount of the lower file system in itself makes `vfs_path_lookup`
return a dentry with another name, and `bind_mount_not_mirrored` is a run in which wrapfs then
shows a directory under a name its lower directory does not have.  The check of the super blocks
in `wrapfs_interpose` stops the lookup from leaving the lower file system, and stops nothing here,
since a bind mount does not leave it.

## The root

The root dentry is the exception in the result.  Its name is `/` and it is its own parent,
whatever directory the mount starts from; `root_not_mirrored` is the state just after a mount.  It
is number 0 throughout, and its being in the hash with its lower path is part of the invariant.
-/

namespace Wrapfs.Namespace

open Ledger LowerTree Runs

variable {super lroot : ℕ} {A : Set ℕ} {k : TreeCore} {d : ℕ} {q : LowerPath}

/-! ## What a walk has found -/

/-- A plain walk ends in an entry. -/
theorem Found.entry {parent : ℕ} {name : String} (h : Found k q parent name walkFlags d) :
    Entry k parent name d := by
  rcases h with h | ⟨hflags, -⟩
  · exact h
  · cases hflags

/-- A dentry of a component of a path is not the root. -/
theorem MirrorInv.hashedAt (h : MirrorInv super lroot A k) {parent : ℕ} {name : String}
    (hname : name ≠ "/") (hd : Entry k parent name d) :
    ∃ e p, HashedAt k d e p ∧ e.parent = parent ∧ e.name = name := by
  obtain ⟨e, he, hhash, hparent, hename⟩ := hd
  have hd0 : d ≠ 0 := by
    rintro rfl
    obtain ⟨er, m, her, -, hroot, -⟩ := h.root
    rw [her] at he
    cases he
    exact hname (hename.symm.trans hroot)
  obtain ⟨p, _, _, hp, -⟩ := h.mirror d e he hhash hd0
  exact ⟨e, p, ⟨he, hhash, hd0, hp⟩, hparent, hename⟩

/-- What the walk to the target of a rename has found can be the target of a rename. -/
theorem MirrorInv.target_of_found (h : MirrorInv super lroot A k) {parent : ℕ}
    {name : String} (hname : name ≠ "/") {flags : LookupFlags}
    (hd : Found k q parent name flags d) :
    ∃ q' e p, Target A lroot k q' d e p ∧ e.parent = parent ∧ e.name = name ∧
      (e.parent ≠ d ∨ HashedAt k d e p) := by
  rcases hd with hd | ⟨-, e, p, hpend, hparent, hename, -⟩
  · obtain ⟨e, p, hd, hparent, hename⟩ := h.hashedAt hname hd
    obtain ⟨q', htarget⟩ := h.target_of_hashed hd
    exact ⟨q', e, p, htarget, hparent, hename, Or.inr hd⟩
  · exact ⟨q, e, p, h.target_of_pending hpend, hparent, hename, Or.inl hpend.parent_ne⟩

/-- The inode of a dentry has the lower inode of its lower dentry. -/
theorem MirrorInv.lowerOf_of_path (h : MirrorInv super lroot A k) {e : UpperDentry}
    {p : LowerPath} {u : ℕ} (hd : k.dentries d = some e) (hu : e.inode = some u)
    (hp : e.fsdata = some (some p)) :
    ∃ x, k.hash.lowerOf u = some x ∧ (k.low.dentries p.dentry).inode = some x := by
  obtain ⟨p', x, hp', hlower, hx, -⟩ := (h.attached d e hd).2 u hu
  rw [hp] at hp'
  cases hp'
  exact ⟨x, hlower, hx⟩

/-- So the type of a dentry is that of its lower dentry. -/
theorem MirrorInv.lowerInodeOf_eq (h : MirrorInv super lroot A k) {e : UpperDentry}
    {p : LowerPath} {x : LowerInode} (hd : k.dentries d = some e)
    (hp : e.fsdata = some (some p)) (hx : k.lowerInodeOf d = some x) :
    (k.low.dentries p.dentry).inode = some x := by
  obtain ⟨u, hu, hlower⟩ := Option.bind_eq_some_iff.mp hx
  rw [Core.inodeOf, hd, Option.bind_some] at hu
  obtain ⟨y, hy, hinode⟩ := h.lowerOf_of_path hd hu hp
  rw [hinode, ← hy, hlower]

/-- Nothing is below a file. -/
theorem MirrorInv.noChild_of_file (h : MirrorInv super lroot A k) {e : UpperDentry}
    {p : LowerPath} {x : LowerInode} (hd : HashedAt k d e p) (hx : k.lowerInodeOf d = some x)
    (hfile : x.isDir = false) : NoChild k d := by
  refine h.noChild hd.dentry hd.path fun hdir => ?_
  obtain ⟨y, hy, hyDir⟩ := hdir
  rw [h.lowerInodeOf_eq hd.dentry hd.path hx] at hy
  cases hy
  rw [hfile] at hyDir
  cases hyDir

/-- Two names of one lower inode are names of one inode. -/
theorem MirrorInv.inodeOf_eq (h : MirrorInv super lroot A k) {old new parent : ℕ}
    {name : String} {flags : LookupFlags} {eo en : UpperDentry} {po pn : LowerPath}
    (ho : HashedAt k old eo po) (hfound : Found k q parent name flags new)
    (hn : k.dentries new = some en) (hpn : en.fsdata = some (some pn))
    (hsame : (k.low.dentries po.dentry).inode = (k.low.dentries pn.dentry).inode) :
    k.inodeOf old = k.inodeOf new := by
  obtain ⟨u, hu⟩ := Option.ne_none_iff_exists'.mp ((h.attached old eo ho.dentry).1 ho.hashed)
  obtain ⟨x, hux, hx⟩ := h.lowerOf_of_path ho.dentry hu ho.path
  rcases hfound with ⟨e', he', hhash, -⟩ | ⟨-, e', p', hpend, -, -, hneg⟩
  · obtain rfl : en = e' := Option.some.inj (hn.symm.trans he')
    obtain ⟨v, hv⟩ := Option.ne_none_iff_exists'.mp ((h.attached new en hn).1 hhash)
    obtain ⟨y, hvy, hy⟩ := h.lowerOf_of_path hn hv hpn
    obtain rfl : x = y := Option.some.inj (hx.symm.trans (hsame.trans hy))
    rw [Core.inodeOf, Core.inodeOf, ho.dentry, hn, Option.bind_some, Option.bind_some, hu, hv,
      h.hash.unique u v x hux hvy]
  · obtain rfl : en = e' := Option.some.inj (hn.symm.trans hpend.dentry)
    obtain rfl : pn = p' := Option.some.inj (Option.some.inj (hpn.symm.trans hpend.path))
    rw [hx, hneg] at hsame
    cases hsame

/-! ## The system calls -/

section Calls

variable {I : Ns LowerTree LowerInode → Prop} {s : Ns LowerTree LowerInode}

/-- From `s` the code ends, if it does, in a state that meets `I`. -/
def Keeps {α : Type} (I : Ns LowerTree LowerInode → Prop) (m : TreeOp α)
    (s : Ns LowerTree LowerInode) : Prop :=
  Yields m s fun _ s' => I s'

/-- Returning changes nothing. -/
theorem Keeps.pure {α : Type} (h : I s) (a : α) : Keeps I (pure a) s := by
  rw [Keeps, yields_pure]
  exact h

/-- The answer of a call does not matter to an invariant. -/
theorem Keeps.discard {α : Type} {m : TreeOp α} (h : Keeps I m s) : Keeps I (discard m) s := by
  simp only [Keeps, Namespace.discard, yields_bind, yields_pure]
  exact h

/-- Code behind a check of the state. -/
theorem Keeps.guarded {P : Ns LowerTree LowerInode → Prop} [DecidablePred P]
    {m : TreeOp Unit} (h : I s) (hm : P s → Keeps I m s) :
    Keeps I (do let s ← look; if P s then m else Pure.pure ()) s := by
  simp only [Keeps, yields_bind, yields_look, yields_ite]
  split
  · rename_i hP
    exact hm hP
  · exact Keeps.pure h ()

/-- A predicate that implies the mirror and that walks keep. -/
structure WalkInv (super lroot : ℕ) (A : Set ℕ) (I : Ns LowerTree LowerInode → Prop) : Prop where
  mirror : ∀ {s : Ns LowerTree LowerInode}, I s → MirrorInv super lroot A s.toCore
  walk : ∀ {s : Ns LowerTree LowerInode} {parent : ℕ} {q : LowerPath}, I s →
    DirAt super s.toCore parent q → ∀ (name : String) (flags : LookupFlags) (c : WalkCalls),
      Keeps I (walkTo super parent name flags c) s

/-- The mirror itself. -/
theorem walkInv_mirror (super lroot : ℕ) (A : Set ℕ) :
    WalkInv super lroot A fun s => MirrorInv super lroot A s.toCore where
  mirror h := h
  walk h hdir name flags c :=
    (mirror_walkTo h hdir name flags c).mono fun _ _ hs' => hs'.inv

/-- A walk, and what is done with the dentry it has found. -/
theorem WalkInv.keeps_walkThen (hI : WalkInv super lroot A I) (h : I s) {parent : ℕ}
    (hdir : DirAt super s.toCore parent q) (name : String) (flags : LookupFlags)
    (c : WalkCalls) {next : ℕ → TreeOp Unit}
    (hnext : ∀ d s', I s' → GrowsBut s.nextDentry s.toCore s'.toCore →
      Found s'.toCore q parent name flags d → Keeps I (next d) s') :
    Keeps I (walkThen super parent name flags c next) s := by
  rw [Keeps, walkThen, yields_bind]
  refine ((hI.walk h hdir name flags c).and
    (mirror_walkTo (hI.mirror h) hdir name flags c)).mono ?_
  rintro r s' ⟨hs', hwalked⟩
  cases r with
  | error err => exact Keeps.pure hs' ()
  | ok d => exact hnext d s' hs' hwalked.frame (hwalked.found d rfl)

/-- The operation runs on a pending dentry over a negative lower one. -/
theorem keeps_onNegative (h : MirrorInv super lroot A s.toCore) (hs : I s) {parent : ℕ}
    {name : String} {flags : LookupFlags} (hfound : Found s.toCore q parent name flags d)
    {op : ℕ → TreeOp (Option Errno)}
    (hop : ∀ dir e p, s.inodeOf parent = some dir → PendingAt s.toCore q d e p →
      e.parent = parent → Keeps I (op dir) s) :
    Keeps I (onNegative parent d op) s := by
  simp only [Keeps, onNegative, yields_bind, yields_dentryAt]
  intro e he
  cases hinode : e.inode with
  | some u => exact Keeps.pure hs ()
  | none =>
      simp only [yields_bind, yields_look, yields_deref]
      intro dir hdir
      rcases hfound with ⟨e', he', hhash, -⟩ | ⟨-, e', p, hpend, hparent, -⟩
      · -- a hashed dentry has an inode
        obtain rfl : e = e' := Option.some.inj (he.symm.trans he')
        exact absurd hinode ((h.attached d e he).1 hhash)
      · exact (hop dir e' p hdir hpend hparent).discard

/-- The operation runs on a hashed dentry of the type asked for. -/
theorem keeps_onType (h : MirrorInv super lroot A s.toCore) (hs : I s) {parent : ℕ}
    {name : String} (hname : name ≠ "/") (hfound : Found s.toCore q parent name walkFlags d)
    {isDir : Bool} {op : ℕ → TreeOp (Option Errno)}
    (hop : ∀ dir e p x, s.inodeOf parent = some dir → HashedAt s.toCore d e p →
      e.parent = parent → s.lowerInodeOf d = some x → x.isDir = isDir → Keeps I (op dir) s) :
    Keeps I (onType isDir parent d op) s := by
  simp only [Keeps, onType, yields_bind, yields_look, yields_ite]
  split
  · rename_i htype
    obtain ⟨x, hx, hisDir⟩ := Option.map_eq_some_iff.mp htype
    obtain ⟨e, p, hd, hparent, -⟩ := h.hashedAt hname hfound.entry
    simp only [yields_deref]
    intro dir hdir
    exact (hop dir e p x hdir hd hparent hx hisDir).discard
  · exact Keeps.pure hs ()

/-! ### The rules -/

/-- The rule for the system calls that make a file, and for `link`. -/
theorem WalkInv.make (hI : WalkInv super lroot A I) (h : I s) {parent : ℕ} {name : String}
    (hwalk : CanWalk s.toCore parent name) (w : WalkCalls)
    (op : ℕ → ℕ → TreeOp (Option Errno))
    (hop : ∀ q d dir e p s', I s' → GrowsBut s.nextDentry s.toCore s'.toCore →
      s'.inodeOf parent = some dir → PendingAt s'.toCore q d e p → e.parent = parent →
      Keeps I (op dir d) s') :
    Keeps I (walkThen super parent name createFlags w fun d =>
      onNegative parent d fun dir => op dir d) s := by
  obtain ⟨q, hdir⟩ := (hI.mirror h).dirAt hwalk.1
  refine hI.keeps_walkThen h hdir name createFlags w fun d s' hs' hgrows hfound => ?_
  refine keeps_onNegative (hI.mirror hs') hs' hfound fun dir e p hinode hpend hparent => ?_
  exact hop q d dir e p s' hs' hgrows hinode hpend hparent

/-- The rule for `unlink` and `rmdir`. -/
theorem WalkInv.remove (hI : WalkInv super lroot A I) (h : I s) {parent : ℕ} {name : String}
    (hwalk : CanWalk s.toCore parent name) (w : WalkCalls) (isDir : Bool)
    (op : ℕ → ℕ → TreeOp (Option Errno))
    (hop : ∀ d dir e p x s', I s' → s'.inodeOf parent = some dir → HashedAt s'.toCore d e p →
      e.parent = parent → s'.lowerInodeOf d = some x → x.isDir = isDir →
      Keeps I (op dir d) s') :
    Keeps I (walkThen super parent name walkFlags w fun d =>
      onType isDir parent d fun dir => op dir d) s := by
  obtain ⟨q, hdir⟩ := (hI.mirror h).dirAt hwalk.1
  refine hI.keeps_walkThen h hdir name walkFlags w fun d s' hs' _ hfound => ?_
  refine keeps_onType (hI.mirror hs') hs' hwalk.2 hfound
    fun dir e p x hinode hd hparent hx hisDir => ?_
  exact hop d dir e p x s' hs' hinode hd hparent hx hisDir

/-- What two walks leave in place. -/
structure WalkFrame (k k' : TreeCore) : Prop where
  dentries : ∀ d e, k.dentries d = some e → k'.dentries d = some e
  low : ∀ l x, (k'.low.dentries l).inode = some x → k'.low.dentries l = k.low.dentries l

/-- The rule for `rename`. -/
theorem WalkInv.rename (hI : WalkInv super lroot A I) (h : I s) {oldParent newParent : ℕ}
    {oldName newName : String} (hold : CanWalk s.toCore oldParent oldName)
    (hnew : CanWalk s.toCore newParent newName) (w w' : WalkCalls) (op : ℕ → ℕ → TreeOp Unit)
    (hop : ∀ q old new s', I s' → WalkFrame s.toCore s'.toCore →
      Entry s'.toCore oldParent oldName old →
      Found s'.toCore q newParent newName targetFlags new → Keeps I (op old new) s') :
    Keeps I (walkThen super oldParent oldName walkFlags w fun old =>
      walkThen super newParent newName targetFlags w' fun new => op old new) s := by
  have hm := hI.mirror h
  obtain ⟨qo, hdiro⟩ := hm.dirAt hold.1
  obtain ⟨qn, hdirn⟩ := hm.dirAt hnew.1
  refine hI.keeps_walkThen h hdiro oldName walkFlags w fun old s₁ h₁ hgrows₁ hfound₁ => ?_
  have hm₁ := hI.mirror h₁
  refine hI.keeps_walkThen h₁ (hdirn.mono hm hgrows₁) newName targetFlags w'
    fun new s₂ h₂ hgrows₂ hfound₂ => ?_
  refine hop qn old new s₂ h₂ ⟨fun d e hd => ?_, fun l x hx => ?_⟩
    (hfound₁.entry.mono hm₁ hgrows₂) hfound₂
  · exact hgrows₂.keeps hm₁ (hgrows₁.keeps hm hd)
  · have hx₁ := hgrows₂.positive l x hx
    rw [hgrows₂.low l (hm₁.low_lt hx₁), hgrows₁.low l (hm.low_lt (hgrows₁.positive l x hx₁))]

end Calls

/-! ## Every step keeps the mirror -/

section Step

variable {s : Ns LowerTree LowerInode}

/-- The upper `d_move` after a lower one. -/
theorem mirror_vfsRename (h : MirrorInv super lroot A s.toCore) {oldParent newParent old new : ℕ}
    {oldName newName : String} (hold : Entry s.toCore oldParent oldName old)
    (holdName : oldName ≠ "/") (hnew : Found s.toCore q newParent newName targetFlags new)
    (hnewName : newName ≠ "/") (c : RenameCalls) :
    Keeps (fun s => MirrorInv super lroot A s.toCore)
      (vfsRename super oldParent old newParent new c) s := by
  simp only [Keeps, vfsRename, yields_bind, yields_look, yields_ite]
  split
  · exact Keeps.pure (I := fun s => MirrorInv super lroot A s.toCore) h ()
  · rename_i hinodes
    simp only [yields_deref]
    intro oldDir _ newDir _
    obtain ⟨eo, po, ho, -⟩ := h.hashedAt holdName hold
    obtain ⟨q', en, pn, htarget, -, -, hself⟩ := h.target_of_found hnewName hnew
    have hostored : s.stored old = some po := Core.stored_eq_some.mpr ⟨eo, ho.dentry, ho.path⟩
    have hnstored : s.stored new = some pn :=
      Core.stored_eq_some.mpr ⟨en, htarget.dentry, htarget.path⟩
    refine (renamed_wrapfsRename hostored hnstored oldDir newDir c).mono ?_
    intro err s' hs'
    rcases hs' with ⟨err, rfl, hs'⟩ | ⟨hsame, -⟩ | ⟨x, t, rfl, hx, hrep, ht, hs'⟩
    · exact Keeps.pure (I := fun s => MirrorInv super lroot A s.toCore) (hs' ▸ h) ()
    · exact absurd (h.inodeOf_eq ho hnew htarget.dentry htarget.path hsame) hinodes
    · -- nothing is below a target that could be replaced
      have hchild : NoChild s.toCore new := by
        refine h.noChild htarget.dentry htarget.path fun hdir => ?_
        obtain ⟨y, hy, hyDir⟩ := hdir
        exact nonempty_of_replaceable hrep hy hyDir
      have hparent : en.parent ≠ new := by
        rcases hself with hself | hn
        · exact hself
        · exact hchild new en hn.dentry hn.hashed hn.ne_zero
      have hne : old ≠ new := fun heq => hinodes (congrArg s.inodeOf heq)
      simp only [dMove, yields_bind, yields_dentryAt, yields_changeCore]
      intro e he e' he'
      rw [hs'] at he he'
      obtain rfl : eo = e := Option.some.inj (ho.dentry.symm.trans he)
      obtain rfl : en = e' := Option.some.inj (htarget.dentry.symm.trans he')
      rw [Ns.withCore_toCore, hs']
      exact h.rename ho htarget hne hchild hparent ht

/-- The end of a dentry that has no children. -/
theorem mirror_dFree (h : MirrorInv super lroot A s.toCore) (hd0 : d ≠ 0)
    (hchild : s.childless d = true) :
    Keeps (fun s => MirrorInv super lroot A s.toCore) (dFree d) s := by
  simp only [Keeps, dFree, yields_bind, yields_dentryAt]
  intro e hd
  -- whatever `->d_release` leaves in the dentry, it is gone afterwards
  have hfree : MirrorInv super lroot A (s.setDentry d none) := by
    refine h.setUnhashed hd0 (h.lt hd) (fun c ec hc _ _ hparent => ?_) fun e' he' => ?_
    · have htest := List.all_eq_true.mp hchild c (List.mem_range.mpr (h.lt hc))
      simp only [hc, decide_eq_true_eq] at htest
      exact htest hparent
    · cases he'
  simp only [yields_ite, yields_pure, yields_changeCore, Ns.withCore_toCore, wrapfsDRelease,
    wrapfsPutResetLowerPath, yields_bind, yields_dentryAt, yields_deref]
  split
  · intro e₁ _ fs _
    cases fs with
    | none =>
        simp only [yields_pure, Ns.withCore_toCore, Core.setDentry_setDentry]
        exact fun _ _ => hfree
    | some path =>
        simp only [yields_pathPut, Ns.withCore_toCore, Core.setDentry_setDentry]
        exact fun _ _ => hfree
  · exact hfree

/-- An inode of no dentry is evicted. -/
theorem MirrorInv.evictInode (h : MirrorInv super lroot A k) {u : ℕ} (hu : k.unused u = true) :
    MirrorInv super lroot A (k.setHash (k.hash.set u none)) := by
  refine h.setHash (h.hash.remove u) fun d e v x hd hv hlower => ?_
  have htest := List.all_eq_true.mp hu d (List.mem_range.mpr (h.lt hd))
  have hne : v ≠ u := by
    rintro rfl
    simp [Core.inodeOf, hd, hv] at htest
  rwa [k.hash.lowerOf_set_of_ne hne]

/-- **One system call or eviction** keeps the mirror. -/
theorem mirror_vfsOp (h : MirrorInv super lroot A s.toCore) (a : VfsAction) :
    Keeps (fun s => MirrorInv super lroot A s.toCore) (vfsOp super a) s := by
  set I : Ns LowerTree LowerInode → Prop := fun s => MirrorInv super lroot A s.toCore
  have hI : WalkInv super lroot A I := walkInv_mirror super lroot A
  cases a with
  | lookup parent name flags w =>
      refine Keeps.guarded (I := I) h fun hwalk => ?_
      obtain ⟨q, hdir⟩ := h.dirAt hwalk.1
      exact hI.keeps_walkThen h hdir name flags w fun d s' hs' _ _ => .pure hs' ()
  | make kind nd parent name w c =>
      refine Keeps.guarded (I := I) h fun hwalk => ?_
      refine hI.make h hwalk w (fun dir d => wrapfsMake super kind nd dir d c) ?_
      intro q d dir e p s' hs' _ _ hpend _
      exact mirror_wrapfsMake hs' hpend kind nd dir c
  | link old parent name w c =>
      refine Keeps.guarded (I := I) h fun hwalk => ?_
      refine hI.make h hwalk.1 w (fun dir d => wrapfsLink (treeVfs super) old dir d c) ?_
      intro q d dir e p s' hs' _ _ hpend _
      exact mirror_wrapfsLink hs' hpend old dir c
  | unlink parent name w c =>
      refine Keeps.guarded (I := I) h fun hwalk => ?_
      refine hI.remove h hwalk w false (fun dir d => wrapfsUnlink (treeVfs super) dir d c) ?_
      intro d dir e p x s' hs' _ hd _ hx hisDir
      exact mirror_wrapfsUnlink hs' hd (MirrorInv.noChild_of_file hs' hd hx hisDir) dir c
  | rmdir parent name w c =>
      refine Keeps.guarded (I := I) h fun hwalk => ?_
      refine hI.remove h hwalk w true (fun dir d => wrapfsRmdir (treeVfs super) dir d c) ?_
      intro d dir e p x s' hs' _ hd _ _ _
      exact mirror_wrapfsRmdir hs' hd dir c
  | rename oldParent oldName newParent newName w w' c =>
      refine Keeps.guarded (I := I) h fun hwalk => ?_
      refine hI.rename h hwalk.1 hwalk.2 w w'
        (fun old new => vfsRename super oldParent old newParent new c) ?_
      intro q old new s' hs' _ hold hnew
      exact mirror_vfsRename hs' hold hwalk.1.2 hnew hwalk.2.2 c
  | evictDentry d =>
      exact Keeps.guarded (I := I) h fun hd => mirror_dFree h hd.1 hd.2
  | evictInode u =>
      refine Keeps.guarded (I := I) h fun hu => ?_
      rw [Keeps, yields_changeCore]
      exact h.evictInode hu

end Step

/-! ## Every run keeps the mirror -/

/-- A step is a system call that returns. -/
theorem Keeps.step {I : Ns LowerTree LowerInode → Prop} {s s' : Ns LowerTree LowerInode}
    {a : VfsAction} (h : Keeps I (vfsOp super a) s) (hstep : vfsStep super s a = .ok s') :
    I s' := by
  unfold vfsStep at hstep
  cases hcall : vfsOp super a s with
  | fault e es =>
      rw [hcall] at hstep
      cases hstep
  | done v t es =>
      rw [hcall] at hstep
      cases hstep
      exact h v s' es hcall

/-- What is assumed of the lower file system when the directory `path` of it, with inode
`root`, is mounted. -/
structure Mountable (super : ℕ) (t : LowerTree) (path : LowerPath) (root : LowerInode) :
    Prop where
  fresh : ∀ l, t.next ≤ l → (t.dentries l).inode = none ∧ (t.dentries l).hashed = false
  /-- entries are entries of directories -/
  dir : ∀ l, (t.dentries l).hashed = true → t.IsDir (t.dentries l).parent
  /-- no directory is below itself -/
  depth : ∃ depth : ℕ → ℕ, ∀ l, (t.dentries l).hashed = true →
    depth (t.dentries l).parent < depth l
  /-- nothing of the same super block is mounted anywhere -/
  mounts : ∀ l q, t.mounted l = some q →
    ∃ x, (t.dentries q.dentry).inode = some x ∧ x.sb ≠ super
  inode : (t.dentries path.dentry).inode = some root
  isDir : root.isDir = true
  sb : root.sb = super

/-- The lower dentries above the mounted directory, by depth. -/
def aboveMount (t : LowerTree) (depth : ℕ → ℕ) (lroot : ℕ) : Set ℕ :=
  {l | l < t.next ∧ depth l < depth lroot}

/-- A positive lower dentry has been numbered. -/
theorem Mountable.lt {t : LowerTree} {path : LowerPath} {root x : LowerInode}
    (h : Mountable super t path root) {l : ℕ} (hx : (t.dentries l).inode = some x) :
    l < t.next := by
  by_contra hge
  rw [(h.fresh l (Nat.le_of_not_lt hge)).1] at hx
  cases hx

/-- The lower tree is as the mirror invariant wants it. -/
theorem Mountable.treeInv {t : LowerTree} {path : LowerPath} {root : LowerInode}
    (h : Mountable super t path root) {depth : ℕ → ℕ}
    (hdepth : ∀ l, (t.dentries l).hashed = true → depth (t.dentries l).parent < depth l) :
    TreeInv super path.dentry (aboveMount t depth path.dentry) t where
  fresh := h.fresh
  dir l _ hhash _ := h.dir l hhash
  above l hl hhash := by
    obtain ⟨x, hx, -⟩ := h.dir l hhash
    have hle : depth l ≤ depth path.dentry := by
      rcases hl with hl | rfl
      · exact hl.2.le
      · exact le_rfl
    exact ⟨h.lt hx, (hdepth l hhash).trans_le hle⟩
  rootOut hl := Nat.lt_irrefl _ hl.2
  inside l hl := by
    rcases hl with hl | rfl
    · exact hl.1
    · exact h.lt h.inode
  mounts := h.mounts

/-- The mirror holds when the super block has been set up. -/
theorem Mountable.mirrorInv {t : LowerTree} {path : LowerPath} {root : LowerInode}
    (h : Mountable super t path root) (attr : ℕ → Attr) :
    ∃ A, MirrorInv super path.dentry A (mountedNs t path root attr).toCore := by
  obtain ⟨depth, hdepth⟩ := h.depth
  have htree := h.treeInv hdepth
  -- the root is the only dentry
  have hother : ∀ {d}, d ≠ 0 → (mountedNs t path root attr).dentries d = none := by
    intro d hd
    show Function.update (fun _ => none) 0 _ d = none
    rw [Function.update_of_ne hd]
  have honly : ∀ {d e}, (mountedNs t path root attr).dentries d = some e →
      d = 0 ∧ e = ⟨"/", 0, some 0, true, true, some (some path)⟩ := by
    intro d e hd
    by_cases hd0 : d = 0
    · subst hd0
      exact ⟨rfl, (Option.some.inj hd).symm⟩
    · rw [hother hd0] at hd
      cases hd
  refine ⟨_, htree, ⟨_, path.mnt, rfl, rfl, rfl, rfl⟩, fun d hd => ?_, ?_, fun d e hd => ?_,
    fun d e hd _ hd0 => ?_, fun d d' e e' _ _ hd hd' _ _ _ _ _ => ?_, fun d e p hd hp => ?_⟩
  · exact hother (Nat.ne_of_gt hd)
  · exact InodeHash.wf_empty.insertNew fun x _ u hu => by cases hu
  · obtain ⟨-, rfl⟩ := honly hd
    refine ⟨fun _ => nofun, fun u hu => ?_⟩
    cases hu
    exact ⟨path, root, rfl, rfl, h.inode, h.sb⟩
  · exact absurd (honly hd).1 hd0
  · rw [(honly hd).1, (honly hd').1]
  · obtain ⟨-, rfl⟩ := honly hd
    cases hp
    exact htree.rootOut

/-- **Namespace mirroring.**  On a mounted directory, in every state that system calls and
evictions reach one after another, with any failures, every hashed positive dentry has a
lower path to the lower inode of its inode, on the lower super block; unless it is the root
its lower dentry has its name and, as parent, the lower dentry of its parent; and no two
upper inodes have the same lower inode. -/
theorem namespace_mirrored {t : LowerTree} {path : LowerPath} {root : LowerInode}
    (hmount : Mountable super t path root) (attr : ℕ → Attr) {as : List VfsAction}
    {s : Ns LowerTree LowerInode}
    (hrun : run (vfsStep super) (mountedNs t path root attr) as = .ok s) :
    (∀ d e u, s.dentries d = some e → e.hashed = true → e.inode = some u →
      ∃ p x, s.stored d = some p ∧ (s.low.dentries p.dentry).inode = some x ∧
        s.hash.lowerOf u = some x ∧ x.sb = super ∧
        (d ≠ 0 → (s.low.dentries p.dentry).name = e.name ∧
          ∃ q, s.stored e.parent = some q ∧ (s.low.dentries p.dentry).parent = q.dentry)) ∧
      ∀ u v x, s.hash.lowerOf u = some x → s.hash.lowerOf v = some x → u = v := by
  obtain ⟨A, hstart⟩ := hmount.mirrorInv attr
  have hinv : MirrorInv super path.dentry A s.toCore :=
    run_invariant (I := fun s => MirrorInv super path.dentry A s.toCore)
      (fun _ a _ hs hstep => (mirror_vfsOp hs a).step hstep) hstart hrun
  refine ⟨fun d e u hd hhash hu => ?_, hinv.hash.unique⟩
  obtain ⟨p, x, hp, hlower, hx, hsb⟩ := (hinv.attached d e hd).2 u hu
  refine ⟨p, x, Core.stored_eq_some.mpr ⟨e, hd, hp⟩, hx, hlower, hsb, fun hd0 => ?_⟩
  obtain ⟨p', ep, q, hp', hep, -, hq, hname, hparent, -⟩ := hinv.mirror d e hd hhash hd0
  rw [hp] at hp'
  cases hp'
  exact ⟨hname, q, Core.stored_eq_some.mpr ⟨ep, hep, hq⟩, hparent⟩

/-- The directory `lower` of the small file system can be mounted. -/
theorem mountable_smallTree : Mountable 0 smallTree ⟨1, 0⟩ smallDir where
  fresh l hl := by
    match l, hl with
    | l + 2, _ => exact ⟨rfl, rfl⟩
  dir l hl := by
    match l, hl with
    | 1, _ => exact ⟨⟨2, true, false, 0⟩, rfl, rfl⟩
  depth := by
    refine ⟨id, fun l hl => ?_⟩
    match l, hl with
    | 1, _ => exact Nat.one_pos
  mounts _ _ hq := by cases hq
  inode := rfl
  isDir := rfl
  sb := rfl

/-- A system call that makes a file `name` in the directory `parent`, with all that it needs
granted. -/
def makeIn (parent : ℕ) (kind : NewKind) (name : String) : VfsAction :=
  .make kind (some createFlags) parent name ⟨true, true, none, true, true, true⟩
    ⟨none, none, true, true⟩

/-- The same in the root. -/
def makeInRoot (kind : NewKind) (name : String) : VfsAction := makeIn 0 kind name

/-- A directory `d` and a file `a` are made, and in `d` a file `c` and a link `b` to `a`; then `a`
is renamed over `c`. -/
def linkAndReplace : List VfsAction :=
  [makeIn 0 .mkdir "d", makeIn 0 .create "a", makeIn 1 .create "c",
    .link 2 1 "b" ⟨true, true, none, true, true, true⟩ ⟨none, none, true, true⟩,
    .rename 0 "a" 1 "c" ⟨true, true, none, true, true, true⟩
      ⟨true, true, none, true, true, true⟩ ⟨none, none, none⟩]

/-- `namespace_mirrored` after these calls.  The dentry of `a` is now called `c` and is in `d`, and
`b` is another name of its inode; each has a lower dentry of its name in the lower directory of
`d`, both with the one lower inode. -/
theorem namespace_mirrored_linkAndReplace :
    ∃ s e e' p p' q x, run (vfsStep 0)
        (mountedNs smallTree ⟨1, 0⟩ smallDir fun _ => smallTree.attr smallDir) linkAndReplace =
        .ok s ∧
      (s.dentries 2 = some e ∧ e.name = "c" ∧ e.parent = 1 ∧ e.inode = some 2) ∧
      (s.dentries 4 = some e' ∧ e'.name = "b" ∧ e'.parent = 1 ∧ e'.inode = some 2) ∧
      s.stored 1 = some q ∧ s.hash.lowerOf 2 = some x ∧
      (s.stored 2 = some p ∧ (s.low.dentries p.dentry).inode = some x ∧
        (s.low.dentries p.dentry).name = "c" ∧ (s.low.dentries p.dentry).parent = q.dentry) ∧
      (s.stored 4 = some p' ∧ (s.low.dentries p'.dentry).inode = some x ∧
        (s.low.dentries p'.dentry).name = "b" ∧ (s.low.dentries p'.dentry).parent = q.dentry) := by
  obtain ⟨s, e, e', hrun, ⟨he, hname, hparent, hinode, hhash⟩, he', hname', hparent', hinode',
      hhash'⟩ : ∃ s e e', run (vfsStep 0)
        (mountedNs smallTree ⟨1, 0⟩ smallDir fun _ => smallTree.attr smallDir) linkAndReplace =
        .ok s ∧
      (s.dentries 2 = some e ∧ e.name = "c" ∧ e.parent = 1 ∧ e.inode = some 2 ∧
        e.hashed = true) ∧
      s.dentries 4 = some e' ∧ e'.name = "b" ∧ e'.parent = 1 ∧ e'.inode = some 2 ∧
        e'.hashed = true :=
    ⟨_, _, _, rfl, ⟨rfl, rfl, rfl, rfl, rfl⟩, rfl, rfl, rfl, rfl, rfl⟩
  obtain ⟨hmirror, -⟩ := namespace_mirrored mountable_smallTree _ hrun
  obtain ⟨p, x, hp, hx, hlower, -, hat⟩ := hmirror 2 e 2 he hhash hinode
  obtain ⟨p', x', hp', hx', hlower', -, hat'⟩ := hmirror 4 e' 2 he' hhash' hinode'
  obtain ⟨hlname, q, hq, hlparent⟩ := hat (by decide)
  obtain ⟨hlname', q', hq', hlparent'⟩ := hat' (by decide)
  obtain rfl : x = x' := Option.some.inj (hlower.symm.trans hlower')
  rw [hparent] at hq
  rw [hparent'] at hq'
  obtain rfl : q = q' := Option.some.inj (hq.symm.trans hq')
  exact ⟨s, e, e', p, p', q, x, hrun, ⟨he, hname, hparent, hinode⟩,
    ⟨he', hname', hparent', hinode'⟩, hq, hlower,
    ⟨hp, hx, hlname.trans hname, hlparent⟩, hp', hx', hlname'.trans hname', hlparent'⟩

/-- The root dentry, just after the mount, is hashed and positive; it is called `/` and is
its own parent, and its lower dentry is called `lower` and has another parent. -/
theorem root_not_mirrored :
    ∃ s e p q, run (vfsStep 0)
        (mountedNs smallTree ⟨1, 0⟩ smallDir fun _ => smallTree.attr smallDir) [] = .ok s ∧
      s.dentries 0 = some e ∧ e.hashed = true ∧ e.inode ≠ none ∧
      s.stored 0 = some p ∧ s.stored e.parent = some q ∧
      (s.low.dentries p.dentry).name ≠ e.name ∧
      (s.low.dentries p.dentry).parent ≠ q.dentry :=
  ⟨_, _, _, _, rfl, rfl, rfl, nofun, rfl, rfl, by decide, by decide⟩

/-- A lower directory with the directories `a` and `b` in it, and `a` mounted on `b` as well. -/
def bindTree : LowerTree :=
  { smallTree with
    dentries := Function.update
      (Function.update smallTree.dentries 2 ⟨"a", 1, some ⟨4, true, false, 0⟩, true, false⟩)
      3 ⟨"b", 1, some ⟨5, true, false, 0⟩, true, false⟩
    next := 4
    nextIno := 6
    mounted := fun l => if l = 3 then some ⟨2, 1⟩ else none }

/-- Why `Mountable` asks that nothing of the lower super block is mounted inside.  A lookup of `b`
crosses the bind mount to the directory `a`, which is on the right super block; so the upper dentry
called `b` is hashed and positive, and its lower dentry is called `a`. -/
theorem bind_mount_not_mirrored :
    ∃ s e p, run (vfsStep 0)
        (mountedNs bindTree ⟨1, 0⟩ smallDir fun _ => bindTree.attr smallDir)
        [.lookup 0 "b" walkFlags ⟨true, true, none, true, true, true⟩] = .ok s ∧
      s.dentries 1 = some e ∧ e.hashed = true ∧ e.inode = some 1 ∧ e.name = "b" ∧
      s.stored 1 = some p ∧ (s.low.dentries p.dentry).name = "a" :=
  ⟨_, _, _, rfl, rfl, rfl, rfl, rfl, rfl, rfl⟩

end Wrapfs.Namespace
