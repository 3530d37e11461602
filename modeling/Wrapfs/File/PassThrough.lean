import Wrapfs.AddressSpace.Operations
import Wrapfs.Foundations.Runs

/-!
# The mount without the `mmap` option: passing calls through

Without `mmap` the file operations are `wrapfs_main_fops`: `read` and `write` hand the upper
file's position to `vfs_read` and `vfs_write` on the lower file, while `llseek` is the kernel's
own and works on the *upper* inode — its `i_size` and its super block's `s_maxbytes`.  So a wrapfs
file behaves like the lower file only as long as the two sizes are equal, and every operation has
to keep them so.

## The lower file system

`LowerFs` is any file system that keeps files in some state `σ` and obeys three laws, which are
fields of the structure: a read leaves the size alone, so does a failing write, and a successful
`notify_change` that sets a size sets it.  Nothing else is assumed: reads may be short, writes may
fail or be short, `O_APPEND` may do what it likes with the position.

## The two machines

`lowerCall` is a call made directly on the lower files; `wrapfsCall` is the same call made through
wrapfs.  Both go through the checks of the VFS (`vfsReadVia`, `vfsWriteVia`) — through wrapfs
twice, once for each level, and `vfsReadVia_twice` says that once is as good.  The flags of the
lower file are those the upper one was opened with, so both levels check the same ones.

The positions are kept for each open file, in both machines.  `llseek` computes with them in
`loff_t`; `loffAdd` wraps where the kernel's addition does, so that the seeks agree on overflow
too.

## What carries the refinement

`Mirrors` relates the two machines: equal lower state, equal positions, and `i_size` equal to the
lower size.  Where each clause is kept:

* a write copies the lower size to the upper inode, but only when it has written
  (`wrapfsWrite_iSize`); a failing one leaves the lower size as it was, by the second law;
* an attribute change sets the upper size first and asks the lower file system afterwards.  If
  that refuses, the sizes differ from then on, so the runs considered are those whose attribute
  changes succeed (`SetattrSucceeds`).  `Wrapfs.File.Setattr` is about the others;
* a seek needs `i_size` and `s_maxbytes` to be the lower ones, and `wrapfs_read_super` copies the
  latter (`wrapfsMaxbytes`).

`passThrough_refines` is the refinement: equal answers, equal lower state, equal positions, and
`i_size` equal to the lower size after every call.
-/

namespace Wrapfs

open Runs

/-! ## The VFS around a file -/

/-- The open flags that matter: `FMODE_READ`, `FMODE_WRITE`, `O_APPEND`. -/
structure OpenFlags where
  read : Bool
  write : Bool
  append : Bool

/-- What a read or write leaves behind: its return value, the bytes delivered, the
position and the file system's state. -/
structure Io (σ : Type) where
  ret : ℤ
  data : List Byte
  pos : ℤ
  state : σ

/-- `MAX_RW_COUNT`. -/
def maxRwCount : ℕ := 2 ^ 31 - pageCacheSize

/-- `rw_verify_area`: the number of bytes that may be transferred.  `ssize_t` has 32
bits, `loff_t` 64. -/
def rwVerifyArea (pos : ℤ) (count : ℕ) : Except Errno ℕ :=
  if 2 ^ 31 ≤ count then .error .EINVAL
  else if pos < 0 then .error .EINVAL
  else if 2 ^ 63 ≤ pos + count then .error .EINVAL
  else .ok (min count maxRwCount)

section Vfs

variable {σ : Type}

/-- `vfs_read` on a file opened with `flags`, whose `->read` is `op`; `bufOk` is what
`access_ok` says of the user's buffer. -/
def vfsReadVia (flags : OpenFlags) (bufOk : Bool) (op : σ → ℤ → ℕ → Io σ) (s : σ)
    (pos : ℤ) (count : ℕ) : Io σ :=
  if flags.read then
    if bufOk then
      match rwVerifyArea pos count with
      | .error e => ⟨e.ret, [], pos, s⟩
      | .ok n => op s pos n
    else ⟨Errno.EFAULT.ret, [], pos, s⟩
  else ⟨Errno.EBADF.ret, [], pos, s⟩

/-- `vfs_write` on a file opened with `flags`, whose `->write` is `op`. -/
def vfsWriteVia (flags : OpenFlags) (bufOk : Bool) (op : σ → ℤ → List Byte → Io σ)
    (s : σ) (pos : ℤ) (data : List Byte) : Io σ :=
  if flags.write then
    if bufOk then
      match rwVerifyArea pos data.length with
      | .error e => ⟨e.ret, [], pos, s⟩
      | .ok n => op s pos (data.take n)
    else ⟨Errno.EFAULT.ret, [], pos, s⟩
  else ⟨Errno.EBADF.ret, [], pos, s⟩

/-- What `rw_verify_area` lets through, it lets through again. -/
theorem rwVerifyArea_of_ok {pos : ℤ} {count n : ℕ} (h : rwVerifyArea pos count = .ok n) :
    rwVerifyArea pos n = .ok n ∧ n ≤ count := by
  unfold rwVerifyArea at h ⊢
  split_ifs at h with h₁ h₂ h₃
  cases h
  have hmin : min count maxRwCount ≤ count := min_le_left _ _
  refine ⟨?_, hmin⟩
  rw [if_neg (by omega), if_neg h₂, if_neg (by omega), min_eq_left (min_le_right _ _)]

/-- **The checks of the lower `vfs_read` repeat those of the upper one.** -/
theorem vfsReadVia_twice (flags : OpenFlags) (bufOk : Bool) (op : σ → ℤ → ℕ → Io σ)
    (s : σ) (pos : ℤ) (count : ℕ) :
    vfsReadVia flags bufOk (vfsReadVia flags bufOk op) s pos count =
      vfsReadVia flags bufOk op s pos count := by
  unfold vfsReadVia
  split_ifs
  · cases harea : rwVerifyArea pos count with
    | error e => rfl
    | ok n => simp only [(rwVerifyArea_of_ok harea).1]
  · rfl
  · rfl

end Vfs

/-- The three ways to seek that are modelled. -/
inductive Whence where
  | set
  | cur
  | fromEnd
  deriving DecidableEq

/-- A `loff_t` sum wraps at 64 bits. -/
def loffAdd (a b : ℤ) : ℤ := Int.bmod (a + b) (2 ^ 64)

/-- `lseek_execute`: the result, and the new position. -/
def lseekExecute (maxsize : ℕ) (pos offset : ℤ) : ℤ × ℤ :=
  if offset < 0 then (Errno.EINVAL.ret, pos)
  else if (maxsize : ℤ) < offset then (Errno.EINVAL.ret, pos)
  else (offset, offset)

/-- `generic_file_llseek`. -/
def genericFileLlseek (maxbytes iSize : ℕ) (pos offset : ℤ) : Whence → ℤ × ℤ
  | .set => lseekExecute maxbytes pos offset
  | .cur =>
      if offset = 0 then (pos, pos) else lseekExecute maxbytes pos (loffAdd pos offset)
  | .fromEnd => lseekExecute maxbytes pos (loffAdd iSize offset)

/-! ## The lower file system -/

/-- The part of `struct iattr` the code looks at.  `some` means that the attribute's
bit is set in `ia_valid`. -/
structure Iattr where
  size : Option ℕ
  mode : Option ℕ
  killSuid : Bool
  killSgid : Bool
  /-- the number of the open file the request came through -/
  file : Option ℕ

/-- A lower file system with files in state `σ`. -/
structure LowerFs (σ : Type) where
  maxbytes : ℕ
  size : σ → ℕ
  read : OpenFlags → σ → ℤ → ℕ → Io σ
  write : OpenFlags → σ → ℤ → List Byte → Io σ
  notifyChange : σ → Iattr → ℤ × σ
  size_read : ∀ flags s pos count, size (read flags s pos count).state = size s
  size_write : ∀ flags s pos data, (write flags s pos data).ret < 0 →
    size (write flags s pos data).state = size s
  size_notifyChange : ∀ s ia n, ia.size = some n → (notifyChange s ia).1 = 0 →
    size (notifyChange s ia).2 = n

/-- The calls made on the open files of one inode. -/
inductive FileCall where
  | llseek (fd : ℕ) (offset : ℤ) (whence : Whence)
  | read (fd count : ℕ) (bufOk : Bool)
  | write (fd : ℕ) (data : List Byte) (bufOk : Bool)
  | setattr (ia : Iattr) (changeOk newsizeOk : Option Errno) (killMode : Option ℕ)

/-- What a call answers: its return value and the bytes it delivers. -/
structure CallAnswer where
  ret : ℤ
  data : List Byte

/-- The lower file with the positions of its open files. -/
structure LowerView (σ : Type) where
  state : σ
  pos : ℕ → ℤ

section Calls

variable {σ : Type} (fs : LowerFs σ) (flags : ℕ → OpenFlags)

/-- A call made directly on the lower files. -/
def lowerCall (d : LowerView σ) : FileCall → CallAnswer × LowerView σ
  | .llseek fd offset whence =>
      let r := genericFileLlseek fs.maxbytes (fs.size d.state) (d.pos fd) offset whence
      (⟨r.1, []⟩, { d with pos := Function.update d.pos fd r.2 })
  | .read fd count bufOk =>
      let r := vfsReadVia (flags fd) bufOk (fs.read (flags fd)) d.state (d.pos fd) count
      (⟨r.ret, r.data⟩, ⟨r.state, Function.update d.pos fd r.pos⟩)
  | .write fd data bufOk =>
      let r := vfsWriteVia (flags fd) bufOk (fs.write (flags fd)) d.state (d.pos fd) data
      (⟨r.ret, r.data⟩, ⟨r.state, Function.update d.pos fd r.pos⟩)
  | .setattr ia _ _ _ =>
      let r := fs.notifyChange d.state ia
      (⟨r.1, []⟩, { d with state := r.2 })

/-! ## The upper file -/

/-- What wrapfs keeps of the inode itself. -/
structure UpperInode where
  iSize : ℕ
  pages : ℕ → Option CachePage

/-- `truncate_setsize`: the new size, and the page cache cut off there, with the tail
of the page the new end falls into zeroed. -/
def truncateSetsize (u : UpperInode) (newsize : ℕ) : UpperInode where
  iSize := newsize
  pages := fun index =>
    if newsize ≤ pageStart index then none
    else (u.pages index).map fun page =>
      { page with
        data := zeroUserSegment page.data (newsize - pageStart index) pageCacheSize }

/-- The flags `wrapfs_open` gives to `dentry_open`: those of the upper file. -/
def lowerOpenFlags (fileFlags : OpenFlags) : OpenFlags := fileFlags

/-- `wrapfs_read_super` inherits the lower `s_maxbytes`. -/
def wrapfsMaxbytes : ℕ := fs.maxbytes

/-- `wrapfs_read`. -/
def wrapfsRead (lowerFlags : OpenFlags) (bufOk : Bool) (s : σ) (pos : ℤ) (count : ℕ) :
    Io σ :=
  vfsReadVia lowerFlags bufOk (fs.read lowerFlags) s pos count

/-- `wrapfs_write`: a successful lower write brings the upper size up to date. -/
def wrapfsWrite (lowerFlags : OpenFlags) (bufOk : Bool) (s : UpperInode × σ) (pos : ℤ)
    (data : List Byte) : Io (UpperInode × σ) :=
  let r := vfsWriteVia lowerFlags bufOk (fs.write lowerFlags) s.2 pos data
  let u := if 0 ≤ r.ret then { s.1 with iSize := fs.size r.state } else s.1
  ⟨r.ret, r.data, r.pos, (u, r.state)⟩

/-- `lower_ia`: the request as it is passed on.  A mode change that only clears the
setuid and setgid bits is left to the lower file system.  The lower file of upper
open file number `fd` has the same number. -/
def lowerIattr (ia : Iattr) : Iattr :=
  if ia.killSuid || ia.killSgid then { ia with mode := none } else ia

/-- `wrapfs_setattr`, with the answers of `inode_change_ok` and
`inode_newsize_ok`. -/
def wrapfsSetattr (changeOk newsizeOk : Option Errno) (ia : Iattr) (u : UpperInode)
    (s : σ) : ℤ × UpperInode × σ :=
  match changeOk with
  | some e => (e.ret, u, s)
  | none =>
      match ia.size with
      | none =>
          let r := fs.notifyChange s (lowerIattr ia)
          (r.1, u, r.2)
      | some newsize =>
          match newsizeOk with
          | some e => (e.ret, u, s)
          | none =>
              -- the upper size is set first, whatever the lower level will say
              let r := fs.notifyChange s (lowerIattr ia)
              (r.1, truncateSetsize u newsize, r.2)

/-- The upper `notify_change` turns a request to clear setuid and setgid bits into a
mode change; `killMode` is the mode it computes, if the bits are set at all. -/
def killPriv (killMode : Option ℕ) (ia : Iattr) : Iattr :=
  if ia.killSuid || ia.killSgid then { ia with mode := killMode } else ia

/-- A file seen through wrapfs: the lower file, the upper inode, the positions of the
upper open files. -/
structure WrapfsView (σ : Type) where
  lower : σ
  inode : UpperInode
  pos : ℕ → ℤ

/-- A call made through wrapfs. -/
def wrapfsCall (u : WrapfsView σ) : FileCall → CallAnswer × WrapfsView σ
  | .llseek fd offset whence =>
      let r := genericFileLlseek (wrapfsMaxbytes fs) u.inode.iSize (u.pos fd) offset whence
      (⟨r.1, []⟩, { u with pos := Function.update u.pos fd r.2 })
  | .read fd count bufOk =>
      let r := vfsReadVia (flags fd) bufOk (wrapfsRead fs (lowerOpenFlags (flags fd)) bufOk)
        u.lower (u.pos fd) count
      (⟨r.ret, r.data⟩, { u with lower := r.state, pos := Function.update u.pos fd r.pos })
  | .write fd data bufOk =>
      let r := vfsWriteVia (flags fd) bufOk (wrapfsWrite fs (lowerOpenFlags (flags fd)) bufOk)
        (u.inode, u.lower) (u.pos fd) data
      (⟨r.ret, r.data⟩, ⟨r.state.2, r.state.1, Function.update u.pos fd r.pos⟩)
  | .setattr ia changeOk newsizeOk killMode =>
      let r := wrapfsSetattr fs changeOk newsizeOk (killPriv killMode ia) u.inode u.lower
      (⟨r.1, []⟩, { u with lower := r.2.2, inode := r.2.1 })

/-- A file just opened: its size has been copied from the lower inode. -/
def WrapfsView.start (s : σ) (pos : ℕ → ℤ) : WrapfsView σ :=
  ⟨s, ⟨fs.size s, fun _ => none⟩, pos⟩

/-- The attribute changes considered: they set a size and succeed.  The VFS never
asks for a mode and for clearing mode bits at once. -/
def SetattrSucceeds (u : WrapfsView σ) : FileCall → Prop
  | .setattr ia changeOk newsizeOk killMode =>
      ia.size ≠ none ∧ ((ia.killSuid || ia.killSgid) = true → ia.mode = none) ∧
        (wrapfsCall fs flags u (.setattr ia changeOk newsizeOk killMode)).1.ret = 0
  | _ => True

/-! ## Refinement -/

/-- The upper and the lower view of one file. -/
structure Mirrors (u : WrapfsView σ) (d : LowerView σ) : Prop where
  state : u.lower = d.state
  pos : u.pos = d.pos
  size : u.inode.iSize = fs.size u.lower

variable {fs flags}

/-- A request comes out below as it went in above. -/
theorem lowerIattr_killPriv {ia : Iattr} (killMode : Option ℕ)
    (hmode : (ia.killSuid || ia.killSgid) = true → ia.mode = none) :
    lowerIattr (killPriv killMode ia) = ia := by
  obtain ⟨size, mode, killSuid, killSgid, file⟩ := ia
  unfold killPriv lowerIattr
  by_cases hkill : (killSuid || killSgid) = true
  · have hnone : mode = none := hmode hkill
    simp only [hkill, if_true, hnone]
  · simp only [hkill, Bool.false_eq_true, if_false]

/-- Reading changes no size. -/
theorem size_vfsReadVia (fs : LowerFs σ) (fl : OpenFlags) (bufOk : Bool) (s : σ) (pos : ℤ)
    (count : ℕ) : fs.size (vfsReadVia fl bufOk (fs.read fl) s pos count).state = fs.size s := by
  unfold vfsReadVia
  split_ifs
  · cases rwVerifyArea pos count with
    | error e => rfl
    | ok n => exact fs.size_read fl s pos n
  · rfl
  · rfl

/-- A failing write changes no size. -/
theorem size_vfsWriteVia (fs : LowerFs σ) (fl : OpenFlags) (bufOk : Bool) (s : σ) (pos : ℤ)
    (data : List Byte) (hneg : (vfsWriteVia fl bufOk (fs.write fl) s pos data).ret < 0) :
    fs.size (vfsWriteVia fl bufOk (fs.write fl) s pos data).state = fs.size s := by
  unfold vfsWriteVia at hneg ⊢
  split_ifs at hneg ⊢
  · cases harea : rwVerifyArea pos data.length with
    | error e => rfl
    | ok n =>
        simp only [harea] at hneg
        exact fs.size_write fl s pos _ hneg
  · rfl
  · rfl

/-- The checks of the upper `vfs_write` add nothing to those `wrapfs_write` makes
below. -/
theorem vfsWriteVia_wrapfsWrite (fs : LowerFs σ) (fl : OpenFlags) (bufOk : Bool)
    (u : UpperInode) (s : σ) (pos : ℤ) (data : List Byte) :
    vfsWriteVia fl bufOk (wrapfsWrite fs fl bufOk) (u, s) pos data =
      wrapfsWrite fs fl bufOk (u, s) pos data := by
  have hneg : ∀ e : Errno, ¬ 0 ≤ e.ret := fun e => not_le.mpr e.ret_neg
  by_cases hmode : fl.write = true
  · by_cases hbuf : bufOk = true
    · cases harea : rwVerifyArea pos data.length with
      | error e =>
          simp only [wrapfsWrite, vfsWriteVia, hmode, hbuf, harea, if_true, hneg, if_false]
      | ok n =>
          obtain ⟨hagain, hle⟩ := rwVerifyArea_of_ok harea
          have hlen : (data.take n).length = n := List.length_take_of_le hle
          simp only [wrapfsWrite, vfsWriteVia, hmode, hbuf, harea, hlen, hagain, if_true,
            List.take_take, min_self]
    · simp only [wrapfsWrite, vfsWriteVia, hmode, hbuf, if_true, hneg, if_false,
        Bool.false_eq_true]
  · simp only [wrapfsWrite, vfsWriteVia, hmode, hneg, if_false, Bool.false_eq_true]

/-- `wrapfs_write` keeps the upper size equal to the lower one. -/
theorem wrapfsWrite_iSize (fs : LowerFs σ) (fl : OpenFlags) (bufOk : Bool) {u : UpperInode}
    {s : σ} (hsize : u.iSize = fs.size s) (pos : ℤ) (data : List Byte) :
    (wrapfsWrite fs fl bufOk (u, s) pos data).state.1.iSize =
      fs.size (wrapfsWrite fs fl bufOk (u, s) pos data).state.2 := by
  simp only [wrapfsWrite]
  split_ifs with hret
  · rfl
  · rw [size_vfsWriteVia fs fl bufOk s pos data (not_le.mp hret)]
    exact hsize

/-- A successful size change sets the upper size, and below it is the request as it
was made. -/
theorem wrapfsSetattr_of_ret {changeOk newsizeOk : Option Errno} {killMode : Option ℕ}
    {ia : Iattr} {u : UpperInode} {s : σ} {n : ℕ} (hsize : ia.size = some n)
    (hmode : (ia.killSuid || ia.killSgid) = true → ia.mode = none)
    (hret : (wrapfsSetattr fs changeOk newsizeOk (killPriv killMode ia) u s).1 = 0) :
    wrapfsSetattr fs changeOk newsizeOk (killPriv killMode ia) u s =
        ((fs.notifyChange s ia).1, truncateSetsize u n, (fs.notifyChange s ia).2) ∧
      (fs.notifyChange s ia).1 = 0 := by
  have hkill : (killPriv killMode ia).size = some n := by
    rw [← hsize]
    unfold killPriv
    split <;> rfl
  have hlower := lowerIattr_killPriv killMode hmode
  cases changeOk with
  | some e => exact absurd hret (Errno.ret_ne_zero e)
  | none =>
      cases newsizeOk with
      | some e =>
          simp only [wrapfsSetattr, hkill] at hret
          exact absurd hret (Errno.ret_ne_zero e)
      | none =>
          simp only [wrapfsSetattr, hkill, hlower] at hret
          refine ⟨?_, hret⟩
          simp only [wrapfsSetattr, hkill, hlower]

/-- **One call.** -/
theorem Mirrors.call {u : WrapfsView σ} {d : LowerView σ} (h : Mirrors fs u d)
    {a : FileCall} (ha : SetattrSucceeds fs flags u a) :
    (wrapfsCall fs flags u a).1 = (lowerCall fs flags d a).1 ∧
      Mirrors fs (wrapfsCall fs flags u a).2 (lowerCall fs flags d a).2 := by
  obtain ⟨lower, inode, pos⟩ := u
  obtain ⟨state, pos'⟩ := d
  obtain ⟨hstate, hpos, hsize⟩ := h
  obtain rfl : lower = state := hstate
  obtain rfl : pos = pos' := hpos
  have hsize' : inode.iSize = fs.size lower := hsize
  cases a with
  | llseek fd offset whence =>
      refine ⟨?_, rfl, ?_, hsize⟩
      · simp only [wrapfsCall, lowerCall, wrapfsMaxbytes, hsize']
      · simp only [wrapfsCall, lowerCall, wrapfsMaxbytes, hsize']
  | read fd count bufOk =>
      have htwice : vfsReadVia (flags fd) bufOk (wrapfsRead fs (lowerOpenFlags (flags fd)) bufOk)
          lower (pos fd) count =
          vfsReadVia (flags fd) bufOk (fs.read (flags fd)) lower (pos fd) count :=
        vfsReadVia_twice (flags fd) bufOk (fs.read (flags fd)) lower (pos fd) count
      refine ⟨?_, ?_, ?_, ?_⟩
      · simp only [wrapfsCall, lowerCall, htwice]
      · simp only [wrapfsCall, lowerCall, htwice]
      · simp only [wrapfsCall, lowerCall, htwice]
      · simp only [wrapfsCall, htwice, size_vfsReadVia]
        exact hsize
  | write fd data bufOk =>
      have hwrite : vfsWriteVia (flags fd) bufOk
          (wrapfsWrite fs (lowerOpenFlags (flags fd)) bufOk) (inode, lower) (pos fd) data =
          wrapfsWrite fs (flags fd) bufOk (inode, lower) (pos fd) data :=
        vfsWriteVia_wrapfsWrite fs (flags fd) bufOk inode lower (pos fd) data
      refine ⟨?_, ?_, ?_, ?_⟩
      · simp only [wrapfsCall, lowerCall, hwrite, wrapfsWrite]
      · simp only [wrapfsCall, lowerCall, hwrite, wrapfsWrite]
      · simp only [wrapfsCall, lowerCall, hwrite, wrapfsWrite]
      · simp only [wrapfsCall, hwrite]
        exact wrapfsWrite_iSize fs (flags fd) bufOk hsize' (pos fd) data
  | setattr ia changeOk newsizeOk killMode =>
      obtain ⟨hsome, hmode, hret⟩ := ha
      obtain ⟨n, hn⟩ := Option.ne_none_iff_exists'.mp hsome
      obtain ⟨hnotify, hok⟩ := wrapfsSetattr_of_ret hn hmode hret
      refine ⟨?_, ?_, rfl, ?_⟩
      · simp only [wrapfsCall, lowerCall, hnotify]
      · simp only [wrapfsCall, lowerCall, hnotify]
      · simp only [wrapfsCall, hnotify]
        exact (fs.size_notifyChange lower ia n hn hok).symm

/-- **Pass-through refinement.**  Any sequence of seeks, reads, writes and successful
size changes on any number of open files gives through wrapfs the answers it gives
on the lower files, leaves the same lower file and the same positions, and leaves
`i_size` equal to the lower size. -/
theorem passThrough_refines (fs : LowerFs σ) (flags : ℕ → OpenFlags) (s : σ) (pos : ℕ → ℤ)
    {calls : List FileCall}
    (h : AnswersAlong (wrapfsCall fs flags) (SetattrSucceeds fs flags) (.start fs s pos) calls) :
    (answers (wrapfsCall fs flags) (.start fs s pos) calls).1 =
        (answers (lowerCall fs flags) ⟨s, pos⟩ calls).1 ∧
      (answers (wrapfsCall fs flags) (.start fs s pos) calls).2.lower =
        (answers (lowerCall fs flags) ⟨s, pos⟩ calls).2.state ∧
      (answers (wrapfsCall fs flags) (.start fs s pos) calls).2.pos =
        (answers (lowerCall fs flags) ⟨s, pos⟩ calls).2.pos ∧
      (answers (wrapfsCall fs flags) (.start fs s pos) calls).2.inode.iSize =
        fs.size (answers (wrapfsCall fs flags) (.start fs s pos) calls).2.lower := by
  have hcall : ∀ u d a, Mirrors fs u d → SetattrSucceeds fs flags u a →
      (wrapfsCall fs flags u a).1 = (lowerCall fs flags d a).1 ∧
        Mirrors fs (wrapfsCall fs flags u a).2 (lowerCall fs flags d a).2 :=
    fun _ _ _ hR hP => hR.call hP
  have hstart : Mirrors fs (.start fs s pos) ⟨s, pos⟩ := ⟨rfl, rfl, rfl⟩
  obtain ⟨hans, hmirror⟩ := answers_refine hcall hstart h
  exact ⟨hans, hmirror.state, hmirror.pos, hmirror.size⟩

end Calls

/-! ## A lower file system of byte lists -/

/-- Files as lists of bytes, with reads and writes that always succeed in full. -/
def byteListFs : LowerFs (List Byte) where
  maxbytes := 2 ^ 40
  size := List.length
  read := fun _ s pos count =>
    let data := ByteStore.pread s pos.toNat count
    ⟨data.length, data, pos + data.length, s⟩
  write := fun flags s pos data =>
    let start := if flags.append then s.length else pos.toNat
    ⟨data.length, [], start + data.length, ByteStore.pwrite 0 s start data⟩
  notifyChange := fun s ia =>
    match ia.size with
    | none => (0, s)
    | some n => (0, s.take n ++ List.replicate (n - s.length) 0)
  size_read := fun _ _ _ _ => rfl
  size_write := fun _ _ _ data hneg => absurd hneg (not_lt.mpr (Int.natCast_nonneg data.length))
  size_notifyChange := by
    intro s ia n hn _
    simp only [hn, List.length_append, List.length_take, List.length_replicate]
    omega

/-- An append, a seek from the end, a read and a truncation, through wrapfs. -/
theorem passThrough_refines_append :
    (answers (wrapfsCall byteListFs fun _ => ⟨true, true, true⟩)
        (.start byteListFs [97] fun _ => 0)
        [.write 0 [98] true, .llseek 0 (-2) .fromEnd, .read 0 5 true,
          .setattr ⟨some 1, none, false, false, none⟩ none none none]).1 =
      [⟨1, []⟩, ⟨0, []⟩, ⟨2, [97, 98]⟩, ⟨0, []⟩] := by
  have hsucceeds : AnswersAlong (wrapfsCall byteListFs fun _ => ⟨true, true, true⟩)
      (SetattrSucceeds byteListFs fun _ => ⟨true, true, true⟩)
      (.start byteListFs [97] fun _ => 0)
      [.write 0 [98] true, .llseek 0 (-2) .fromEnd, .read 0 5 true,
        .setattr ⟨some 1, none, false, false, none⟩ none none none] :=
    ⟨trivial, trivial, trivial, ⟨Option.some_ne_none 1, fun _ => rfl, rfl⟩, trivial⟩
  rw [(passThrough_refines byteListFs _ [97] _ hsucceeds).1]
  rfl

end Wrapfs
