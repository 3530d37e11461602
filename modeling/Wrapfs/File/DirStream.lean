import Wrapfs.File.PassThrough

/-!
# Directory streams

An open wrapfs directory has two positions: its own `f_pos` and that of the lower file.
`wrapfs_dir_fops` takes its `llseek` from `generic_file_llseek`, which moves the upper one;
`wrapfs_readdir` lists the lower directory from the *lower* one and then copies the lower position
up.  Nothing ever copies the upper position down.  So a seek is visible to the caller, who asks
for `f_pos`, and invisible to the listing, until the next `readdir` overwrites it.

## The lower directory

`LowerDir` is any directory: a function from a position and the room in the caller's buffer to
the entries it hands to `filldir`, the position it ends at and its return value.  The entries
are of any type.  Nothing is assumed of the positions: they may be offsets, hashes or cookies.
What a file system may do with a position that starts no entry (round it up, return an error) is
part of the function.

## Two machines and the positions between them

`lowerDirCall` is a call made directly on an open lower directory, `wrapfsDirCall` the same call
made through wrapfs.  The second carries one position more, and the question is when that shows.

* `samePos_along_iff` relates the two positions along a run: as long as no `readdir` was made out
  of step, the lower position is the one the last `readdir` returned, whatever seeks came after.
  So "the positions are equal at every `readdir`" (`SamePos`) can be read off the calls as they run
  on the lower directory itself: every `readdir` is made where the one before it ended
  (`Continues`).
* `wrapfsDirCall_of_samePos` is the step lemma: in step, a call is answered as on the lower
  directory, and the upper position follows the lower directory's.
* `LowerDir.TellsApart.samePos` is its converse, for directories whose listings differ from
  different positions: there a `readdir` out of step cannot go unnoticed.  Without that assumption
  it can: an empty directory may list nothing from everywhere.

`dirStream_refines_iff` puts the three together.  A listing from start to end is in step; a rewind
with `lseek(fd, 0, SEEK_SET)` is not, and lists nothing (`rewind_lists_nothing`).
-/

namespace Wrapfs

open Runs

/-- What a `readdir` leaves behind: its return value, the entries given to `filldir`, and the
position. -/
structure Listing (ε : Type) where
  ret : ℤ
  entries : List ε
  pos : ℤ
  deriving DecidableEq

/-- A lower directory: its super block's `s_maxbytes`, its `i_size`, and what `vfs_readdir` does
from a position, for a caller with room for `room` bytes. -/
structure LowerDir (ε : Type) where
  maxbytes : ℕ
  iSize : ℕ
  list : (pos : ℤ) → (room : ℕ) → Listing ε

/-- The calls made on one open directory. -/
inductive DirCall where
  | llseek (offset : ℤ) (whence : Whence)
  | readdir (room : ℕ)

/-- An open wrapfs directory: its `f_pos` and the lower file's. -/
structure DirFile where
  pos : ℤ
  lowerPos : ℤ
  deriving DecidableEq

/-- A directory just opened: `wrapfs_open` opens the lower directory, and both files start at
position 0. -/
def DirFile.opened : DirFile := ⟨0, 0⟩

section Calls

variable {ε : Type} (d : LowerDir ε)

/-- A call made directly on an open lower directory at position `pos`. -/
def lowerDirCall (pos : ℤ) : DirCall → Listing ε × ℤ
  | .llseek offset whence =>
      let r := genericFileLlseek d.maxbytes d.iSize pos offset whence
      (⟨r.1, [], r.2⟩, r.2)
  | .readdir room =>
      let r := d.list pos room
      (r, r.pos)

/-- `wrapfs_readdir(file, dirent, filldir)`. -/
def wrapfsReaddir (f : DirFile) (room : ℕ) : Listing ε × DirFile :=
  let r := d.list f.lowerPos room
  -- `file->f_pos = lower_file->f_pos`, whatever `vfs_readdir` returned
  (r, ⟨r.pos, r.pos⟩)

/-- A call made through wrapfs.  The seek works on the upper inode, whose `i_size` and
`s_maxbytes` were copied from the lower ones. -/
def wrapfsDirCall (f : DirFile) : DirCall → Listing ε × DirFile
  | .llseek offset whence =>
      let r := genericFileLlseek d.maxbytes d.iSize f.pos offset whence
      (⟨r.1, [], r.2⟩, { f with pos := r.2 })
  | .readdir room => wrapfsReaddir d f room

/-- At a `readdir` the two positions are equal. -/
def SamePos (f : DirFile) : DirCall → Prop
  | .llseek _ _ => True
  | .readdir _ => f.pos = f.lowerPos

/-- The same condition, read off the calls as they run on the lower directory itself: every
`readdir` is made at the position where the one before it ended.  `listed` is that position, `pos`
the present one. -/
def Continues : (listed pos : ℤ) → List DirCall → Prop
  | _, _, [] => True
  | listed, pos, .llseek offset whence :: calls =>
      Continues listed (genericFileLlseek d.maxbytes d.iSize pos offset whence).2 calls
  | listed, pos, .readdir room :: calls =>
      pos = listed ∧ Continues (d.list pos room).pos (d.list pos room).pos calls

/-- From two different positions a listing differs: in its entries, in the position it ends at or
in its return value. -/
def LowerDir.TellsApart : Prop := ∀ room, Function.Injective fun pos => d.list pos room

variable {d}

/-- **The two positions along a run.**  Until a `readdir` is made out of step, the lower position
is the one the last `readdir` returned, whatever seeks came after it; so the positions are equal
at every `readdir` exactly when each is made where the one before it ended. -/
theorem samePos_along_iff {calls : List DirCall} {f : DirFile} :
    AnswersAlong (wrapfsDirCall d) SamePos f calls ↔ Continues d f.lowerPos f.pos calls := by
  induction calls generalizing f with
  | nil => exact Iff.rfl
  | cons call calls ih =>
      cases call with
      | llseek offset whence =>
          show True ∧ AnswersAlong (wrapfsDirCall d) SamePos _ calls ↔ _
          rw [true_and, ih]
          exact Iff.rfl
      | readdir room =>
          show f.pos = f.lowerPos ∧ AnswersAlong (wrapfsDirCall d) SamePos _ calls ↔ _
          refine and_congr_right fun hpos => ?_
          rw [ih, hpos]
          exact Iff.rfl

/-- **One call in step.**  It is answered as on the lower directory, and the upper position stays
the lower directory's. -/
theorem wrapfsDirCall_of_samePos {f : DirFile} {pos : ℤ} {call : DirCall} (h : f.pos = pos)
    (hstep : SamePos f call) :
    (wrapfsDirCall d f call).1 = (lowerDirCall d pos call).1 ∧
      (wrapfsDirCall d f call).2.pos = (lowerDirCall d pos call).2 := by
  subst h
  cases call with
  | llseek offset whence => exact ⟨rfl, rfl⟩
  | readdir room =>
      have hpos : f.pos = f.lowerPos := hstep
      show d.list f.lowerPos room = d.list f.pos room ∧
        (d.list f.lowerPos room).pos = (d.list f.pos room).pos
      rw [hpos]
      exact ⟨rfl, rfl⟩

/-- A `readdir` out of step shows, if listings tell positions apart. -/
theorem LowerDir.TellsApart.samePos (hd : d.TellsApart) {f : DirFile} {pos : ℤ} {call : DirCall}
    (h : f.pos = pos) (hans : (wrapfsDirCall d f call).1 = (lowerDirCall d pos call).1) :
    SamePos f call := by
  subst h
  cases call with
  | llseek offset whence => trivial
  | readdir room =>
      have hlist : d.list f.lowerPos room = d.list f.pos room := hans
      exact (hd room hlist).symm

end Calls

/-- **Directory streams through wrapfs.**  For every lower directory and every sequence of seeks
and reads on one open directory, if the two positions are equal at every `readdir`, each call
answers as it does on the lower directory itself: with the same return value, entries and position.
For a directory whose listings tell positions apart that is the only way.  And it is a condition on
the caller alone: every `readdir` is made at the position where the one before it ended, the first
at 0. -/
theorem dirStream_refines_iff {ε : Type} (d : LowerDir ε) (calls : List DirCall) :
    (AnswersAlong (wrapfsDirCall d) SamePos .opened calls →
      (answers (wrapfsDirCall d) .opened calls).1 = (answers (lowerDirCall d) 0 calls).1) ∧
    (d.TellsApart →
      (answers (wrapfsDirCall d) .opened calls).1 = (answers (lowerDirCall d) 0 calls).1 →
      AnswersAlong (wrapfsDirCall d) SamePos .opened calls) ∧
    (AnswersAlong (wrapfsDirCall d) SamePos .opened calls ↔ Continues d 0 0 calls) := by
  have hopened : DirFile.opened.pos = 0 := rfl
  refine ⟨fun halong => ?_, fun hd hans => ?_, samePos_along_iff⟩
  · exact (answers_refine (R := fun f pos => f.pos = pos)
      (fun _ _ _ h hstep => wrapfsDirCall_of_samePos h hstep) hopened halong).1
  · refine (answers_eq_iff (R := fun f pos => f.pos = pos) (fun f pos call h => ?_) hopened).mp hans
    exact ⟨⟨hd.samePos h, fun hstep => (wrapfsDirCall_of_samePos h hstep).1⟩,
      fun hstep => (wrapfsDirCall_of_samePos h hstep).2⟩

/-- A directory of the entries `0`, …, `n - 1`, each at its own position; one of them fits into
each byte of the buffer. -/
def countingDir (n : ℕ) : LowerDir ℕ where
  maxbytes := 2 ^ 31
  iSize := n
  list := fun pos room =>
    let entries := ((List.range n).drop pos.toNat).take room
    ⟨0, entries, pos + entries.length⟩

theorem countingDir_tellsApart (n : ℕ) : (countingDir n).TellsApart := by
  intro room pos pos' h
  have hentries := congrArg (fun l : Listing ℕ => (l.entries.length : ℤ)) h
  have hpos := congrArg Listing.pos h
  simp only [countingDir] at hentries hpos
  omega

/-- Three entries read in three calls, with a seek to the end and back between the first two: the
directory tells positions apart, the sequence is one that continues, and it is answered alike. -/
theorem dirStream_refines_iff_threeReads :
    (countingDir 3).TellsApart ∧
    (answers (wrapfsDirCall (countingDir 3)) .opened [.readdir 1, .llseek 0 .fromEnd,
        .llseek 1 .set, .readdir 1, .readdir 1]).1 =
      (answers (lowerDirCall (countingDir 3)) 0 [.readdir 1, .llseek 0 .fromEnd,
        .llseek 1 .set, .readdir 1, .readdir 1]).1 :=
  have h := dirStream_refines_iff (countingDir 3) [.readdir 1, .llseek 0 .fromEnd,
    .llseek 1 .set, .readdir 1, .readdir 1]
  ⟨countingDir_tellsApart 3, h.1 (h.2.2.mpr ⟨rfl, rfl, rfl, trivial⟩)⟩

/-- A listing of a directory in two parts, with a query of the position between them, is the
lower one; a rewound listing is not: it shows nothing, where the lower directory starts again. -/
theorem rewind_lists_nothing :
    (answers (wrapfsDirCall (countingDir 2)) .opened
        [.readdir 1, .llseek 0 .cur, .readdir 1]).1 =
      (answers (lowerDirCall (countingDir 2)) 0 [.readdir 1, .llseek 0 .cur, .readdir 1]).1 ∧
    (answers (wrapfsDirCall (countingDir 2)) .opened
        [.readdir 2, .llseek 0 .set, .readdir 2]).1 =
      [⟨0, [0, 1], 2⟩, ⟨0, [], 0⟩, ⟨0, [], 2⟩] ∧
    (answers (lowerDirCall (countingDir 2)) 0 [.readdir 2, .llseek 0 .set, .readdir 2]).1 =
      [⟨0, [0, 1], 2⟩, ⟨0, [], 0⟩, ⟨0, [0, 1], 2⟩] := by
  decide

end Wrapfs
