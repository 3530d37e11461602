import Mathlib

/-!
# The kernel interface: return codes, faults and pages

What the file system code of this repository takes from the kernel and never computes itself:
errno codes, the ways a call can fail to return, a page of memory with the primitives that write
to it, and the arithmetic of page indices.

## Return codes and faults

A kernel function that fails returns the negation of an errno.  `Errno` carries that its code is
positive, so that an error is never mistaken for success and `ret_neg` needs no hypothesis
anywhere. A call that does not return at all is something else, and is a `Fault`: an assertion
fails, a bad pointer is followed, or the call waits for a lock nobody will release.  Code that can
fault has type `Except Fault _` or is an `Op` of `Wrapfs.Foundations.LedgerOp`; nothing catches a
fault.

## Pages

A page is a function from its 4096 offsets, not a list: it always has all its bytes, and a store
changes some of them and keeps the rest (`storeBytes_of_mem`, `storeBytes_of_not_mem`).  Bytes
that move between pages and files are lists, because a copy may be short.

Offsets in files are natural numbers.  The address space code only ever sees offsets that the VFS
has already checked against `s_maxbytes`, so neither `pos + len` nor a shifted page index wraps
there. Where an offset is signed in the code and may be negative, as in `llseek`, the model has an
integer (`Wrapfs.File.PassThrough`).
-/

namespace Wrapfs

/-! ## Return codes and faults -/

/-- An errno.  A failing kernel function returns its negation, which is why the
code is positive: an error is never mistaken for `0`. -/
structure Errno where
  code : ℕ
  pos : 0 < code
  deriving DecidableEq

namespace Errno

/-- The value a function returns to report the error. -/
def ret (e : Errno) : ℤ := -(e.code : ℤ)

/-- An error is negative. -/
theorem ret_neg (e : Errno) : e.ret < 0 := by
  have := e.pos
  unfold ret
  omega

theorem ret_ne_zero (e : Errno) : e.ret ≠ 0 := ne_of_lt e.ret_neg

/-- The codes the modelled code returns or is given. -/
def EPERM : Errno := ⟨1, by decide⟩
def ENOENT : Errno := ⟨2, by decide⟩
def EIO : Errno := ⟨5, by decide⟩
def EBADF : Errno := ⟨9, by decide⟩
def ECHILD : Errno := ⟨10, by decide⟩
def ENOMEM : Errno := ⟨12, by decide⟩
def EACCES : Errno := ⟨13, by decide⟩
def EFAULT : Errno := ⟨14, by decide⟩
def EBUSY : Errno := ⟨16, by decide⟩
def EEXIST : Errno := ⟨17, by decide⟩
def EXDEV : Errno := ⟨18, by decide⟩
def ENOTDIR : Errno := ⟨20, by decide⟩
def EISDIR : Errno := ⟨21, by decide⟩
def EINVAL : Errno := ⟨22, by decide⟩
def EMFILE : Errno := ⟨24, by decide⟩
def ENOTTY : Errno := ⟨25, by decide⟩
def ENOSPC : Errno := ⟨28, by decide⟩
def ENOTEMPTY : Errno := ⟨39, by decide⟩
def ESTALE : Errno := ⟨116, by decide⟩

end Errno

/-- The ways a call does not return: an assertion fails, a bad pointer is
dereferenced, or it waits for a lock nobody will release. -/
inductive Fault where
  | bugOn
  | badPointer
  | blocked
  deriving DecidableEq

/-! ## Pages -/

abbrev Byte : Type := UInt8

/-- `PAGE_CACHE_SIZE`. -/
def pageCacheSize : ℕ := 4096

/-- The contents of one page. -/
abbrev Page : Type := Fin pageCacheSize → Byte

theorem pageCacheSize_pos : 0 < pageCacheSize := by decide

instance : NeZero pageCacheSize := ⟨by decide⟩

/-- `zero_user_segment(page, start, end)`. -/
def zeroUserSegment (p : Page) (start stop : ℕ) : Page :=
  fun i => if start ≤ i.val ∧ i.val < stop then 0 else p i

/-- `zero_user_segments(page, start1, end1, start2, end2)`. -/
def zeroUserSegments (p : Page) (start₁ stop₁ start₂ stop₂ : ℕ) : Page :=
  zeroUserSegment (zeroUserSegment p start₁ stop₁) start₂ stop₂

/-- Copy bytes into a mapped page from in-page offset `off` on: the user copy of
a write, or the part of a page a lower read fills. -/
def storeBytes (p : Page) (off : ℕ) (data : List Byte) : Page :=
  fun i => if off ≤ i.val ∧ i.val < off + data.length then data.getD (i.val - off) 0
    else p i

/-- The `n` bytes of a mapped page from in-page offset `off` on. -/
def pageBytes (p : Page) (off n : ℕ) : List Byte :=
  (List.range n).map fun j =>
    if h : off + j < pageCacheSize then p ⟨off + j, h⟩ else 0

@[simp] theorem length_pageBytes (p : Page) (off n : ℕ) :
    (pageBytes p off n).length = n := by
  simp [pageBytes]

/-- Inside the page, `pageBytes` reads the page. -/
theorem getElem?_pageBytes (p : Page) {off n j : ℕ} (hj : j < n)
    (hin : off + j < pageCacheSize) :
    (pageBytes p off n)[j]? = some (p ⟨off + j, hin⟩) := by
  simp [pageBytes, hj, hin]

/-- Where the bytes go, the page has them. -/
theorem storeBytes_of_mem (p : Page) {off : ℕ} {data : List Byte}
    {i : Fin pageCacheSize} (h : off ≤ i.val ∧ i.val < off + data.length) :
    data[i.val - off]? = some (storeBytes p off data i) := by
  have hlt : i.val - off < data.length := by omega
  rw [storeBytes, if_pos h, List.getD_eq_getElem?_getD,
    List.getElem?_eq_getElem hlt, Option.getD_some]

/-- Elsewhere it is as it was. -/
theorem storeBytes_of_not_mem (p : Page) {off : ℕ} {data : List Byte}
    {i : Fin pageCacheSize} (h : ¬ (off ≤ i.val ∧ i.val < off + data.length)) :
    storeBytes p off data i = p i := by
  rw [storeBytes, if_neg h]

/-! ## Page indices -/

/-- `pos >> PAGE_CACHE_SHIFT`. -/
def pageIndex (pos : ℕ) : ℕ := pos / pageCacheSize

/-- `pos & (PAGE_CACHE_SIZE - 1)`. -/
def pageOffset (pos : ℕ) : ℕ := pos % pageCacheSize

/-- `index << PAGE_CACHE_SHIFT`. -/
def pageStart (index : ℕ) : ℕ := index * pageCacheSize

theorem pageOffset_lt (pos : ℕ) : pageOffset pos < pageCacheSize :=
  Nat.mod_lt _ pageCacheSize_pos

/-- An offset is that of its page and the one inside. -/
theorem pageStart_add_pageOffset (pos : ℕ) :
    pageStart (pageIndex pos) + pageOffset pos = pos := by
  rw [pageStart, pageIndex, pageOffset, Nat.mul_comm]
  exact Nat.div_add_mod pos pageCacheSize

/-- The page of a byte, and -/
theorem pageIndex_pageStart_add (index : ℕ) (i : Fin pageCacheSize) :
    pageIndex (pageStart index + i.val) = index := by
  rw [pageIndex, pageStart, Nat.mul_comm, Nat.mul_add_div pageCacheSize_pos,
    Nat.div_eq_of_lt i.isLt, Nat.add_zero]

/-- its place there. -/
theorem pageOffset_pageStart_add (index : ℕ) (i : Fin pageCacheSize) :
    pageOffset (pageStart index + i.val) = i.val := by
  rw [pageOffset, pageStart, Nat.mul_comm, Nat.mul_add_mod, Nat.mod_eq_of_lt i.isLt]

/-- A byte lies in the page of index `index` exactly when its offset does. -/
theorem pageIndex_eq_iff (pos index : ℕ) :
    pageIndex pos = index ↔
      pageStart index ≤ pos ∧ pos < pageStart index + pageCacheSize := by
  constructor
  · rintro rfl
    have h₁ := pageStart_add_pageOffset pos
    have h₂ := pageOffset_lt pos
    omega
  · rintro ⟨hlo, hhi⟩
    have hpos : pageStart index + (⟨pos - pageStart index, by omega⟩ :
        Fin pageCacheSize).val = pos := by
      show pageStart index + (pos - pageStart index) = pos
      omega
    rw [← hpos]
    exact pageIndex_pageStart_add _ _

/-- Pages of different indices share no offset. -/
theorem pageStart_disjoint {index index' : ℕ} (hne : index ≠ index')
    (i : Fin pageCacheSize) :
    ¬ (pageStart index' ≤ pageStart index + i.val ∧
      pageStart index + i.val < pageStart index' + pageCacheSize) := by
  rw [← pageIndex_eq_iff, pageIndex_pageStart_add]
  exact hne

end Wrapfs
