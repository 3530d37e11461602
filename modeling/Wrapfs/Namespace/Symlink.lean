import Wrapfs.Namespace.Rules
import Wrapfs.Namespace.LowerTree
import Wrapfs.Namespace.References

/-!
# Following a symlink (`wrapfs_follow_link`)

`wrapfs_follow_link` reads the lower symlink into a buffer of one page and puts the terminator at
the index `wrapfs_readlink` returns.  The whole buffer is offered to `->readlink`, which fills it
without a terminator and returns how much it filled.  So when the target is a page long or longer,
the index is the length of the buffer: the terminator lands behind it, and what is in front of it
is the head of the target.

## The buffer

The buffer is modelled with the memory behind it and with the indices that were written, so that
neither is hidden: `LinkBuf.mem` is a function on all of ℕ, and `LinkBuf.writes` lists every index
in the order of the writes.  What the memory held before is an argument, because `kmalloc` does
not clear it.

The target is a `LinkTarget`, a list of bytes without a zero, and may have any length.  Most file
systems allow less than a page and leave room for the terminator, but nothing in wrapfs asks for
that, and the lower file system is any.

## What is proved

`FollowLink.Exact` is what the function should do: return an error pointer, or the whole target,
terminated, and write inside the buffer only.  `followLink_exact_iff` says when it does: without
memory, when the lower inode has no `->readlink`, when that fails, and when the target is shorter
than the page.  `followLink_out_of_bounds` is a target of exactly one page.

The cases are those of `endLink`, the last lines of the function: given the answer of
`wrapfs_readlink`, they set an error pointer, or write the terminator and set the buffer.  That a
failed call frees the buffer, and who frees it otherwise, is in `Wrapfs.Namespace.LinkWalk`.
-/

namespace Wrapfs.Namespace

open Ledger

/-- The target of a symlink: no byte of it is zero. -/
structure LinkTarget where
  bytes : List Byte
  noNul : 0 ∉ bytes

/-- The buffer: the memory from its first byte on, and the indices written so far. -/
structure LinkBuf where
  mem : ℕ → Byte
  writes : List ℕ

namespace LinkBuf

/-- `buf[i] = x`. -/
def put (b : LinkBuf) (i : ℕ) (x : Byte) : LinkBuf :=
  ⟨Function.update b.mem i x, b.writes ++ [i]⟩

/-- Bytes copied to the buffer from index `i` on. -/
def copy : LinkBuf → ℕ → List Byte → LinkBuf
  | b, _, [] => b
  | b, i, x :: xs => (b.put i x).copy (i + 1) xs

/-- Copying writes each index once, in order. -/
theorem copy_writes (b : LinkBuf) (i : ℕ) (xs : List Byte) :
    (b.copy i xs).writes = b.writes ++ List.range' i xs.length := by
  induction xs generalizing b i with
  | nil => simp [copy]
  | cons x xs ih =>
      rw [copy, ih, put, List.length_cons, List.range'_succ, List.append_assoc,
        List.singleton_append]

/-- What the memory holds after a copy. -/
theorem copy_mem (b : LinkBuf) (i : ℕ) (xs : List Byte) (j : ℕ) :
    (b.copy i xs).mem j =
      if i ≤ j ∧ j < i + xs.length then xs.getD (j - i) 0 else b.mem j := by
  induction xs generalizing b i with
  | nil =>
      rw [copy, List.length_nil, if_neg (by omega)]
  | cons x xs ih =>
      rw [copy, ih, List.length_cons]
      by_cases hj : j = i
      · subst hj
        rw [if_neg (by omega), if_pos (by omega)]
        simp [put]
      · by_cases hin : i + 1 ≤ j ∧ j < i + 1 + xs.length
        · have hsub : j - i = (j - (i + 1)) + 1 := by omega
          rw [if_pos hin, if_pos (by omega), hsub, List.getD_cons_succ]
        · rw [if_neg hin, if_neg (by omega)]
          exact Function.update_of_ne hj _ _

end LinkBuf

/-- The lower `->readlink(dentry, buf, bufsiz)` for a symlink to `target`: it fails, or it
copies what fits, without a terminator, and returns how much that is. -/
def lowerReadlink (fails : Option Errno) (target : LinkTarget) (buf : LinkBuf) (bufsiz : ℕ) :
    Except Errno ℕ × LinkBuf :=
  match fails with
  | some e => (.error e, buf)
  | none => (.ok (min target.bytes.length bufsiz), buf.copy 0 (target.bytes.take bufsiz))

/-- What `wrapfs_follow_link` leaves behind: the pointer given to `nd_set_link` — an error,
or a buffer, which is the memory from its first byte on — and the indices it wrote to. -/
structure FollowLink where
  link : Except Errno (ℕ → Byte)
  writes : List ℕ

/-- The end of `wrapfs_follow_link`: the buffer is freed, or the terminator is put at the
index returned. -/
def endLink (buf : LinkBuf) : Except Errno ℕ → FollowLink
  | .error e => ⟨.error e, []⟩
  | .ok n => ⟨.ok (buf.put n 0).mem, (buf.put n 0).writes⟩

/-- The memory holds the C string `t`. -/
def IsCString (mem : ℕ → Byte) (t : List Byte) : Prop :=
  (∀ i, i < t.length → mem i = t.getD i 0 ∧ mem i ≠ 0) ∧ mem t.length = 0

/-- Nothing is written outside the buffer, and the link set is an error or the whole
target. -/
structure FollowLink.Exact (target : LinkTarget) (r : FollowLink) : Prop where
  inBounds : ∀ i ∈ r.writes, i < pageCacheSize
  whole : ∀ mem, r.link = .ok mem → IsCString mem target.bytes

theorem endLink_error_exact (target : LinkTarget) (buf : LinkBuf) (e : Errno) :
    (endLink buf (.error e)).Exact target where
  inBounds _ hi := absurd hi List.not_mem_nil
  whole _ hmem := by cases hmem

/-- The terminator is written at the index returned. -/
theorem mem_writes_endLink (buf : LinkBuf) (n : ℕ) : n ∈ (endLink buf (.ok n)).writes :=
  List.mem_append_right _ List.mem_cons_self

/-- With the target read into a new buffer, the end of the function is right exactly when
the target leaves room for the terminator. -/
theorem endLink_ok_exact_iff (target : LinkTarget) (stale : ℕ → Byte) :
    (endLink ((LinkBuf.mk stale []).copy 0 (target.bytes.take pageCacheSize))
        (.ok (min target.bytes.length pageCacheSize))).Exact target ↔
      target.bytes.length < pageCacheSize := by
  constructor
  · intro h
    have hlast := h.inBounds _ (mem_writes_endLink _ _)
    omega
  · intro hlen
    have hmin : min target.bytes.length pageCacheSize = target.bytes.length :=
      min_eq_left hlen.le
    rw [List.take_of_length_le hlen.le, hmin]
    constructor
    · intro i hi
      have hmem : i ∈ List.range' 0 target.bytes.length ∨ i = target.bytes.length := by
        simpa [endLink, LinkBuf.put, LinkBuf.copy_writes] using hi
      rcases hmem with hmem | rfl
      · have := List.mem_range'_1.mp hmem
        omega
      · exact hlen
    · intro mem hmem
      cases hmem
      refine ⟨fun i hi => ?_, Function.update_self _ _ _⟩
      have hbyte : ((LinkBuf.mk stale []).copy 0 target.bytes).mem i = target.bytes.getD i 0 := by
        rw [LinkBuf.copy_mem, if_pos (by omega), Nat.sub_zero]
      have hput : (((LinkBuf.mk stale []).copy 0 target.bytes).put target.bytes.length 0).mem i =
          target.bytes.getD i 0 := (Function.update_of_ne hi.ne _ _).trans hbyte
      refine ⟨hput, ?_⟩
      rw [hput, List.getD_eq_getElem _ _ hi]
      exact fun hzero => target.noNul (hzero ▸ List.getElem_mem hi)

section FollowLink

variable {σ ι : Type} (V : LowerVfs σ ι)

/-- `wrapfs_follow_link`.  `kmalloc` is the memory the buffer is allocated in. -/
def wrapfsFollowLink (d : ℕ) (kmalloc : Option (ℕ → Byte)) (fails : Option Errno)
    (target : LinkTarget) : NsOp σ ι FollowLink :=
  match kmalloc with
  | none => pure ⟨.error .ENOMEM, []⟩
  | some stale => do
      -- `len = PAGE_SIZE` is both the size of the buffer and `bufsiz`
      let read := lowerReadlink fails target ⟨stale, []⟩ pageCacheSize
      let err ← wrapfsReadlink V d read.1
      pure (endLink read.2 err)

/-- `d` is the dentry of a file with an upper inode, whose lower inode is `x`. -/
structure LinkAt (s : Ns σ ι) (d : ℕ) (x : ι) : Prop where
  lower : ∃ path, s.stored d = some path ∧ V.dInode s.low path.dentry = some x
  inode : ∃ e u, s.dentries d = some e ∧ e.inode = some u

variable {V} {s : Ns σ ι} {d : ℕ} {x : ι}

/-- `wrapfs_readlink` returns what the lower `->readlink` returns, if there is one. -/
theorem returns_wrapfsReadlink (h : LinkAt V s d x) (readlink : Except Errno ℕ)
    {P : Except Errno ℕ → Prop} :
    Returns (wrapfsReadlink V d readlink) s (fun r _ => P r) ↔
      P (if V.hasReadlink x then readlink else .error .EINVAL) := by
  obtain ⟨⟨path, hpath, hx⟩, e, u, he, hu⟩ := h
  simp only [wrapfsReadlink, returns_bind, returns_wrapfsGetLowerPath, returns_look,
    returns_deref, hpath, Option.some.injEq, exists_eq_left', hx]
  generalize (if V.hasReadlink x then readlink else .error .EINVAL : Except Errno ℕ) = r
  cases r with
  | error e => simp
  | ok n => simp [he, hu]

/-- With a buffer and a lower `->readlink` that succeeds, the function ends with the
terminator. -/
theorem returns_wrapfsFollowLink (h : LinkAt V s d x) (hhas : V.hasReadlink x = true)
    (stale : ℕ → Byte) (target : LinkTarget) {P : FollowLink → Prop} :
    Returns (wrapfsFollowLink V d (some stale) none target) s (fun r _ => P r) ↔
      P (endLink ((LinkBuf.mk stale []).copy 0 (target.bytes.take pageCacheSize))
        (.ok (min target.bytes.length pageCacheSize))) := by
  simp only [wrapfsFollowLink, returns_bind, returns_pure]
  rw [returns_wrapfsReadlink h, if_pos hhas]
  rfl

/-- **When a symlink is followed exactly.**  For a dentry whose lower dentry is positive,
`wrapfs_follow_link` returns with an error pointer or the whole target, terminated, having
written inside its buffer only, exactly when it gets no buffer, or there is nothing to
read, or reading fails, or the target is shorter than a page. -/
theorem followLink_exact_iff (h : LinkAt V s d x) (kmalloc : Option (ℕ → Byte))
    (fails : Option Errno) (target : LinkTarget) :
    (Returns (wrapfsFollowLink V d kmalloc fails target) s fun r _ => r.Exact target) ↔
      kmalloc = none ∨ V.hasReadlink x = false ∨ fails ≠ none ∨
        target.bytes.length < pageCacheSize := by
  cases kmalloc with
  | none =>
      rw [wrapfsFollowLink, returns_pure]
      exact iff_of_true (endLink_error_exact target ⟨fun _ => 0, []⟩ .ENOMEM) (Or.inl rfl)
  | some stale =>
      cases hhas : V.hasReadlink x with
      | false =>
          simp only [wrapfsFollowLink, returns_bind, returns_pure]
          rw [returns_wrapfsReadlink h, hhas]
          exact iff_of_true (endLink_error_exact target _ .EINVAL) (Or.inr (Or.inl trivial))
      | true =>
          cases fails with
          | some e =>
              simp only [wrapfsFollowLink, returns_bind, returns_pure]
              rw [returns_wrapfsReadlink h, hhas]
              exact iff_of_true (endLink_error_exact target _ e)
                (Or.inr (Or.inr (Or.inl (Option.some_ne_none e))))
          | none =>
              rw [returns_wrapfsFollowLink h hhas, endLink_ok_exact_iff]
              simp

end FollowLink

/-- A symlink, for runs on concrete inputs. -/
def smallLink : LowerInode := ⟨4, false, true, 0⟩

/-- A lower directory with that symlink in it, called `l`. -/
def linkTree : LowerTree :=
  { smallTree with
    dentries := Function.update smallTree.dentries 2 ⟨"l", 1, some smallLink, true, false⟩
    next := 3
    nextIno := 5 }

/-- The mount over it, with the symlink looked up. -/
def linkNs : Ns LowerTree LowerInode :=
  let s := mountedNs linkTree ⟨1, 0⟩ smallDir fun _ => linkTree.attr smallDir
  { s with
    dentries := Function.update s.dentries 1
      (some ⟨"l", 0, some 1, true, true, some (some ⟨2, 0⟩)⟩)
    nextDentry := 2
    hash := s.hash.insertNew ⟨some smallLink, false⟩
    attr := Function.update s.attr 1 (linkTree.attr smallLink) }

theorem linkAt_linkNs : LinkAt (treeVfs 0) linkNs 1 smallLink where
  lower := ⟨⟨2, 0⟩, rfl, rfl⟩
  inode := ⟨_, 1, rfl, rfl⟩

/-- The target made of `n` letters `a`. -/
def letters (n : ℕ) : LinkTarget where
  bytes := List.replicate n 97
  noNul h := absurd (List.eq_of_mem_replicate h) (by decide)

/-- `followLink_exact_iff` for a target of three letters. -/
theorem followLink_exact_iff_short :
    Returns (wrapfsFollowLink (treeVfs 0) 1 (some fun _ => 7) none (letters 3)) linkNs
      fun r _ => r.Exact (letters 3) :=
  (followLink_exact_iff linkAt_linkNs (some fun _ => 7) none (letters 3)).mpr
    (Or.inr (Or.inr (Or.inr (by decide))))

/-- A target of exactly one page: the function returns, with a link set, and has put the
terminator behind its buffer. -/
theorem followLink_out_of_bounds :
    Returns (wrapfsFollowLink (treeVfs 0) 1 (some fun _ => 7) none (letters pageCacheSize))
      linkNs fun r _ => pageCacheSize ∈ r.writes ∧ ¬ r.Exact (letters pageCacheSize) := by
  have hlen : (letters pageCacheSize).bytes.length = pageCacheSize := List.length_replicate
  rw [returns_wrapfsFollowLink linkAt_linkNs rfl, endLink_ok_exact_iff, hlen, min_self]
  exact ⟨mem_writes_endLink _ _, Nat.lt_irrefl _⟩

end Wrapfs.Namespace
