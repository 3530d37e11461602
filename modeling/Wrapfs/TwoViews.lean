import Mathlib
import Wrapfs.AddressSpace.Volume
import Wrapfs.Namespace.InodeRefs
import Wrapfs.Namespace.LifeCycle

/-!
# Five functions and their two models

Most of the code is modelled once.  Five functions are not: they do something to the data of a
file or to the inodes of a super block, and something to references and pointers, and the results
about the one need nothing of the other.

| function | data and inodes | references and pointers |
|---|---|---|
| `wrapfs_open` | `lowerOpenFlags` | `Wrapfs.Namespace.wrapfsOpen` |
| `wrapfs_flush` | `Wrapfs.wrapfsFlush` | `Wrapfs.Namespace.wrapfsFlush` |
| `wrapfs_fsync` | `Wrapfs.wrapfsFsync` | `Wrapfs.Namespace.wrapfsFsync` |
| `wrapfs_setattr` | `Wrapfs.wrapfsSetattr` | `Wrapfs.Namespace.wrapfsSetattr` |
| `wrapfs_read_super` | `readSuperStep` | `Wrapfs.Namespace.readSuperRoot` |

This module shows that the two models of each are two views of one function: in states that show
the same file or inode, and with the same answers of the calls underneath, they return the same
value, stop together, and leave states that show the same file or inode again.

## What the views share

`UpperFile.view` is an open file as the page operations see it: `FMODE_WRITE`, whether there is a
`wrapfs_file_info` and whether it has a lower file.  It forgets which lower path that is, and adds
the flags the lower file was opened with.  `opened_view` says that a successful `wrapfs_open`
leaves a file whose view has a lower file; that is what the results about pages assume of their
files when they speak of `OpenFile.of` and `OpenFile.plain`.

For `wrapfs_setattr` the views share the size of the upper inode and the state of the lower file,
with `ShowsNotifyChange` saying that the two descriptions of the lower `notify_change` are of the
same call.  For `wrapfs_read_super` they share the root inode, which one of them knows by its
number in the hash and the other by the call of `wrapfs_iget` that has returned it.

`wrapfs_iget` itself also appears twice, as a whole and step by step; that the steps make up the
whole is in `Wrapfs.Namespace.Iget` (`run_igetAlone`).
-/

namespace Wrapfs.Namespace

open Ledger

variable {σ ι : Type}

/-! ## Open files -/

/-- `file->private_data` as the page operations see it.  A structure that has been freed is no
better than none: both are followed to a bad pointer. -/
def PrivateData.view (flags : LowerFile) : PrivateData → Option (Option LowerFile)
  | .null => none
  | .freed => none
  | .info lower => some (lower.map fun _ => flags)

/-- An open file as the page operations see it, with the flags of its lower file. -/
def UpperFile.view (file : UpperFile) (flags : LowerFile) : OpenFile :=
  ⟨file.data.view flags, file.write⟩

/-- The outcome of a call on an open file as the page operations give it, with the inode they
leave. -/
def Outcome.asCall {κ ρ : Type} (ino : Inode) :
    Outcome κ ρ Fault (Option Errno) → Except Fault (ℤ × Inode)
  | .done err _ _ => .ok (retOf err, ino)
  | .fault e _ => .error e

/-- `wrapfs_fsync` tests for an error by comparing with 0. -/
theorem retOf_ne_zero_iff {err : Option Errno} : retOf err ≠ 0 ↔ err ≠ none := by
  cases err with
  | none => simp [retOf]
  | some e => simp [retOf, e.ret_ne_zero]

/-- `wrapfs_flush` tests for it by the sign. -/
theorem retOf_neg_iff {err : Option Errno} : retOf err < 0 ↔ err ≠ none := by
  cases err with
  | none => simp [retOf]
  | some e => simp [retOf, e.ret_neg]

section Files

variable {s : Fs σ ι} {f : ℕ} {file : UpperFile}

/-- A file that is open is there. -/
theorem fileAt_eq (hfile : s.files f = some file) :
    (fileAt f : FsOp σ ι UpperFile) s = .done file s [] := by
  have hlook : (look : FsOp σ ι (Fs σ ι)) s = .done s s [] := rfl
  rw [fileAt, bind_of_done hlook, hfile]
  rfl

/-- `wrapfs_lower_file` is followed alike in both views. -/
theorem wrapfsLowerFile_eq (hfile : s.files f = some file) (flags : LowerFile) :
    (∃ lower, file.data = .info lower ∧ (file.view flags).info = some (lower.map fun _ => flags) ∧
      (wrapfsLowerFile f : FsOp σ ι _) s = .done lower s []) ∨
    ((file.view flags).info = none ∧
      (wrapfsLowerFile f : FsOp σ ι _) s = .fault .badPointer []) := by
  have hfollow : (wrapfsLowerFile f : FsOp σ ι _) s = _ := bind_of_done (fileAt_eq hfile) _
  cases hdata : file.data with
  | info lower =>
      refine Or.inl ⟨lower, rfl, ?_, ?_⟩
      · rw [UpperFile.view, hdata]
        rfl
      · rw [hfollow, hdata]
        rfl
  | null | freed =>
      refine Or.inr ⟨?_, ?_⟩
      · rw [UpperFile.view, hdata]
        rfl
      · rw [hfollow, hdata]
        rfl

/-- `wrapfs_get_lower_path` of a dentry that has a path, from an open file. -/
theorem inNs_wrapfsGetLowerPath_eq {d : ℕ} {path : LowerPath} (hpath : s.ns.stored d = some path) :
    (inNs (wrapfsGetLowerPath d) : FsOp σ ι LowerPath) s =
      .done path s [.acquire (.ns (.mnt path.mnt)), .acquire (.ns (.dentry path.dentry))] := by
  have hget : (wrapfsGetLowerPath d : NsOp σ ι LowerPath) s.ns =
      .done path s.ns [.acquire (.mnt path.mnt), .acquire (.dentry path.dentry)] := by
    have hlook : (look : NsOp σ ι (Ns σ ι)) s.ns = .done s.ns s.ns [] := rfl
    rw [wrapfsGetLowerPath, bind_of_done hlook, hpath]
    rfl
  rw [inNs, zoom, hget]
  rfl

/-- **`wrapfs_open`.**  A file it has opened has a lower file in the other view. -/
theorem opened_view (V : LowerVfs σ ι) (hfile : s.files f = some file) (hdata : file.data = .null)
    (c : OpenCalls) :
    Yields (wrapfsOpen V f c) s fun err s' => err = none →
      ∃ file', s'.files f = some file' ∧ file'.write = file.write ∧
        ∀ flags, file'.view flags = .of flags file.write := by
  have hopen : Ensures (wrapfsOpen V f c) s 0 _ := ensures_wrapfsOpen V hfile hdata c
  refine hopen.yields.mono ?_
  rintro err s' ⟨_, ns, data, -, rfl, -, hstored, -⟩ herr
  obtain ⟨path, hinfo, -⟩ := hstored herr
  refine ⟨{ file with data := data }, Function.update_self _ _ _, rfl, fun flags => ?_⟩
  rw [UpperFile.view, hinfo]
  rfl

/-- **`wrapfs_flush`.**  Writing the pages back answers `c.writeAndWait` and leaves `ino'`; the
lower `->flush`, if there is one, answers `c.lowerFlush`. -/
theorem wrapfsFlush_view (hfile : s.files f = some file) (flags : LowerFile) {w : WritepageCalls}
    {c : FlushCalls} {lowerFlush : Option ℤ} (hflush : lowerFlush.getD 0 = retOf c.lowerFlush)
    {ino ino' : Inode}
    (hwrite : (if file.write then writeCachePages w ino.dirty ino else .ok (0, ino)) =
      .ok (retOf (if file.write then c.writeAndWait else none), ino')) :
    Wrapfs.wrapfsFlush w lowerFlush (file.view flags) ino =
      Outcome.asCall ino' (wrapfsFlush f c s) := by
  have hcall : wrapfsFlush f c s = _ := bind_of_done (fileAt_eq hfile) _
  have hmode : (file.view flags).fmodeWrite = file.write := rfl
  rw [hcall, Wrapfs.wrapfsFlush, hmode, hwrite]
  cases (if file.write then c.writeAndWait else none) with
  | some err =>
      have hneg : retOf (some err) < 0 := retOf_neg_iff.mpr (Option.some_ne_none err)
      simp only [if_pos hneg]
      rfl
  | none =>
      have hneg : ¬ retOf none < 0 := lt_irrefl 0
      simp only [if_neg hneg]
      rcases wrapfsLowerFile_eq hfile flags with ⟨lower, -, hinfo, hlower⟩ | ⟨hinfo, hlower⟩
      · rw [hinfo, bind_of_done hlower]
        cases lower with
        | none => rfl
        | some path =>
            show Except.ok (lowerFlush.getD 0, ino') = _
            rw [hflush]
            rfl
      · rw [hinfo, bind_of_fault hlower]
        rfl

/-- The same for `fsync`, with whether the lower file has reached the disk. -/
def Outcome.asSync {κ ρ : Type} (ino : Inode) :
    Outcome κ ρ Fault (Option Errno) → Except Fault (ℤ × Bool × Inode)
  | .done err _ _ => .ok (retOf err, err.isNone, ino)
  | .fault e _ => .error e

/-- **`wrapfs_fsync`** of a file whose dentry has a lower path.  `generic_file_fsync` fails with
what writing the pages back fails with, or with what writing the inode back does. -/
theorem wrapfsFsync_view (hfile : s.files f = some file) (flags : LowerFile) {path : LowerPath}
    (hpath : s.ns.stored file.dentry = some path) {w : WritepageCalls}
    {pagesErr metadata : Option Errno} {c : FsyncCalls}
    (hgeneric : c.genericFsync = pagesErr.orElse fun _ => metadata) {ino ino' : Inode}
    (hwrite : writeCachePages w ino.dirty ino = .ok (retOf pagesErr, ino')) :
    Wrapfs.wrapfsFsync w metadata c.lowerFsync (file.view flags) ino =
      Outcome.asSync ino' (wrapfsFsync f c s) := by
  have hcall : wrapfsFsync f c s = _ := bind_of_done (fileAt_eq hfile) _
  rw [hcall, Wrapfs.wrapfsFsync, hwrite, hgeneric]
  cases pagesErr with
  | some err =>
      have hne : retOf (some err) ≠ 0 := retOf_ne_zero_iff.mpr (Option.some_ne_none err)
      simp only [if_pos hne]
      rfl
  | none =>
      cases metadata with
      | some err => rfl
      | none =>
          rcases wrapfsLowerFile_eq hfile flags with ⟨lower, -, hinfo, hlower⟩ | ⟨hinfo, hlower⟩
          · rw [hinfo]
            show _ = Outcome.asSync ino' (((wrapfsLowerFile f >>= _ : FsOp σ ι _) s).after [])
            rw [bind_of_done hlower, bind_of_done (inNs_wrapfsGetLowerPath_eq hpath)]
            cases lower with
            | none => rfl
            | some path =>
                cases c.lowerFsync with
                | none => rfl
                | some err => rfl
          · rw [hinfo]
            show _ = Outcome.asSync ino' (((wrapfsLowerFile f >>= _ : FsOp σ ι _) s).after [])
            rw [bind_of_fault hlower]
            rfl

end Files

/-! ## `wrapfs_setattr` -/

section Setattr

variable (V : LowerVfs σ ι) {τ : Type} (fs : LowerFs τ) (file : σ → τ)

/-- `fs` is what the lower `notify_change` does to the file behind `lower`, when it answers
`answer`; `file` is that file in the lower file system. -/
def ShowsNotifyChange (lower : ℕ) (answer : Option Errno) : Prop :=
  ∀ low ia, fs.notifyChange (file low) ia =
    (retOf (V.notifyChange low lower ia answer).1, file (V.notifyChange low lower ia answer).2)

/-- The result of the data model, `r`, and the outcome of the other are of the same call on the
upper inode `u`. -/
def ShowsSetattr (u : ℕ) (r : ℤ × UpperInode × τ) (err : Option Errno) (s' : Ns σ ι) : Prop :=
  r.1 = retOf err ∧ r.2.1.iSize = (s'.attr u).size ∧ r.2.2 = file s'.low

variable {V fs file} {s : Ns σ ι} {u : ℕ} {x : ι} {path : LowerPath} {ia : Iattr} {c : SetattrCalls}

/-- From the lower `i_mutex` on.  The attributes that are copied at the end do not include the
size, so the size an `ATTR_SIZE` request has set before stays. -/
theorem setattrLower_view (hshows : ShowsNotifyChange V fs file path.dentry c.notifyChange)
    {ui : UpperInode} (hsize : ui.iSize = (s.attr u).size) :
    Returns (setattrLower V u (some x) path ia c) s (ShowsSetattr file u
      ((fs.notifyChange (file s.low) (lowerIattr ia)).1, ui,
        (fs.notifyChange (file s.low) (lowerIattr ia)).2)) := by
  rw [hshows s.low (lowerIattr ia)]
  simp only [setattrLower, changeCore, returns_bind, returns_acquire, returns_look, returns_change,
    returns_release]
  cases hcall : (V.notifyChange s.low path.dentry (lowerIattr ia) c.notifyChange).1 with
  | some err => exact (returns_pure _).mpr ⟨rfl, hsize, rfl⟩
  | none =>
      simp only [returns_bind, returns_copyFrom, returns_pure]
      refine ⟨x, rfl, rfl, ?_, rfl⟩
      rw [hsize]
      simp [Ns.touch, Ns.withCore, fsstackCopyAttrAll]

/-- **`wrapfs_setattr`** of a dentry with an inode and a lower path. -/
theorem wrapfsSetattr_view {d : ℕ} {e : UpperDentry} (hd : s.dentries d = some e)
    (hu : e.inode = some u) (hpath : s.stored d = some path) (hlower : s.hash.lowerOf u = some x)
    (hshows : ShowsNotifyChange V fs file path.dentry c.notifyChange) {ui : UpperInode}
    (hsize : ui.iSize = (s.attr u).size) :
    Returns (wrapfsSetattr V d ia c) s (ShowsSetattr file u
      (Wrapfs.wrapfsSetattr fs c.changeOk c.newsizeOk ia ui (file s.low))) := by
  obtain ⟨inode, hinode, hx⟩ := Option.bind_eq_some_iff.mp hlower
  simp only [wrapfsSetattr, returns_bind, returns_dentryAt, returns_deref]
  refine ⟨e, hd, u, hu, ?_⟩
  cases hchange : c.changeOk with
  | some err => exact (returns_pure _).mpr ⟨rfl, hsize, rfl⟩
  | none =>
      simp only [wrapfsLowerInode, returns_bind, returns_wrapfsGetLowerPath, returns_look,
        returns_deref, returns_wrapfsPutLowerPath, returns_pure]
      refine ⟨path, hpath, inode, hinode, ?_⟩
      rw [hx]
      cases hnew : ia.size with
      | none =>
          simp only [Wrapfs.wrapfsSetattr, setattrUnderPath, hnew]
          exact setattrLower_view hshows hsize
      | some size =>
          simp only [Wrapfs.wrapfsSetattr, setattrUnderPath, hnew]
          cases c.newsizeOk with
          | some err => exact (returns_pure _).mpr ⟨rfl, hsize, rfl⟩
          | none =>
              -- `truncate_setsize` comes before the lower call in both
              simp only [returns_bind, touchInode, returns_change]
              refine setattrLower_view hshows ?_
              simp [truncateSetsize, Ns.touch]

end Setattr

/-! ## `wrapfs_read_super` -/

section ReadSuper

variable (V : LowerVfs σ ι) {path : LowerPath} {lower : ι}

/-- A root inode is made as number 0, and a root dentry for it, or the inode is put again. -/
theorem returns_makeRoot_made [DecidableEq ι] {ns : Ns σ ι} (hhash : ns.hash = .empty)
    (hlower : V.dInode ns.low path.dentry = some lower) (allocRoot : Bool) :
    Returns (makeRoot V path ⟨true, true⟩ allocRoot) ns fun root ns' =>
      if allocRoot then
        ∃ d, root = .ok d ∧ ns'.dentries d ≠ none ∧ ns'.hash.lowerOf 0 = some lower
      else root = .error .ENOMEM ∧ ns'.hash.inodes 0 = none := by
  simp only [makeRoot, returns_bind, returns_look, returns_deref, hlower, wrapfsIget, hhash]
  refine ⟨lower, rfl, ?_⟩
  cases allocRoot with
  | false => simp [findInode, InodeHash.empty, changeCore, initAttrs]
  | true =>
      simp only [findInode, InodeHash.empty, changeCore, initAttrs, dAllocRoot]
      simp [InodeHash.lowerOf, InodeHash.insertNew]

/-- With its private data the root dentry is set up, and the inodes are left alone. -/
theorem returns_setupRoot_true {ns : Ns σ ι} {d : ℕ} (hd : ns.dentries d ≠ none) :
    Returns (setupRoot d path true) ns fun err ns' => err = none ∧ ns'.hash = ns.hash := by
  obtain ⟨e, he⟩ := Option.ne_none_iff_exists'.mp hd
  simp [setupRoot, newDentryPrivateData, wrapfsSetLowerPath, he, changeCore]

/-- Without it `wrapfs_d_release` follows the null pointer. -/
theorem not_returns_setupRoot_false {ns : Ns σ ι} {d : ℕ} {P : Option Errno → Ns σ ι → Prop} :
    ¬ Returns (setupRoot d path false) ns P := by
  simp [setupRoot, newDentryPrivateData, dFree, wrapfsDRelease, wrapfsPutResetLowerPath, changeCore]

/-- **`wrapfs_read_super`** from `d_alloc_root` on.  The mount in which the root inode has been made
as number 0 and the cache in which a call of `wrapfs_iget` has returned it go the same way: both go
on with it, both put it for want of a root dentry, or the code does not come back in either. -/
theorem readSuperRoot_view [DecidableEq ι] {s : Super σ ι} (hhash : s.ns.hash = .empty)
    (hlower : V.dInode s.ns.low path.dentry = some lower) {r : InodeRefs ι} {i u : ℕ}
    (hcall : r.cache.calls[i]? = some ⟨lower, .returned u⟩) {c : ReadSuperCalls}
    (higet : c.iget = ⟨true, true⟩) :
    match readSuperStep r i c.allocRoot c.privateData with
    | .error _ => ¬ Returns (readSuperRoot V path c) s fun _ _ => True
    | .ok r' => Returns (readSuperRoot V path c) s fun err s' =>
        err = none ∧ r' = r ∧ s'.ns.hash.lowerOf 0 = some lower ∨
          err = some .ENOMEM ∧ r'.upper = r.upper ++ [.release u] ∧ s'.ns.hash.inodes 0 = none := by
  have hmade := returns_makeRoot_made V hhash hlower c.allocRoot
  simp only [readSuperStep, hcall, readSuperRoot, inSuperNs, returns_bind, returns_zoom, higet]
  cases halloc : c.allocRoot with
  | false =>
      rw [halloc] at hmade
      refine hmade.mono ?_
      rintro root ns ⟨rfl, hgone⟩
      exact (returns_pure _).mpr (Or.inr ⟨rfl, rfl, hgone⟩)
  | true =>
      rw [halloc] at hmade
      cases c.privateData with
      | true =>
          refine hmade.mono ?_
          rintro root ns ⟨d, rfl, hd, hroot⟩
          simp only [returns_bind, returns_change, returns_zoom]
          refine (returns_setupRoot_true hd).mono ?_
          rintro err ns' ⟨rfl, hsame⟩
          exact Or.inl ⟨rfl, trivial, (congrArg (·.lowerOf 0) hsame).trans hroot⟩
      | false =>
          rintro hreturns
          refine not_returns_false ((hmade.and hreturns).mono ?_)
          rintro root ns ⟨⟨d, rfl, -, -⟩, hsetup⟩
          simp only [returns_bind, returns_change, returns_zoom] at hsetup
          exact not_returns_setupRoot_false hsetup

end ReadSuper

end Wrapfs.Namespace
