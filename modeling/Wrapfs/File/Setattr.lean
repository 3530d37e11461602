import Wrapfs.File.PassThrough

/-!
# Attribute changes that fail (`wrapfs_setattr`)

Three things can refuse an attribute change: `inode_change_ok` and `inode_newsize_ok` above, and
the lower `notify_change`.  The first two are asked before anything is touched.  The third is
asked *after* `truncate_setsize`, which has by then set the upper size and cut the upper page
cache off there; nothing undoes that when the lower file system says no.

The function is `wrapfsSetattr` of `Wrapfs.File.PassThrough`, where runs with a refused change had
to be left out.  Here one call is looked at from all sides.

## What is asked

`SetattrAtomic` is what a caller may expect, success or failure: 0 with both sizes as asked for,
or an error with the upper inode and the lower file as they were.  The upper inode is its size
together with its cached pages, so a page that is thrown away counts as a change.

## When it holds

`setattrAtomic_iff` says when: whenever the order does not matter, because no size is set, or an
upper check refuses it, or the lower level agrees — or because the upper inode is such that
setting the size changes nothing.  The last is `UpperInode.NothingPastEnd` for the size the inode
has: no page is cached from there on, and the page the size falls into is zero behind it.
`truncateSetsize_eq_self_iff` shows that these are exactly the inodes that `truncate_setsize`
leaves alone.

Two laws of the lower file system are assumed, as hypotheses and not as fields of `LowerFs`, since
the refinement does without them: a refused change changes nothing, and a change that sets no size
keeps the size.  With a lower file system that broke the first, no order of the steps in wrapfs
could make the call atomic.

`setattr_not_atomic` is the failure: a truncation refused below, after which the upper size is 0
and the lower file has its byte.  `Wrapfs.TwoViews` connects this `wrapfsSetattr` with that of the
directory operations, which has the references and locks.
-/

namespace Wrapfs

/-- Nothing is cached from `i_size` on: no page starts there, and the page that `i_size`
falls into is zero behind it. -/
def UpperInode.NothingPastEnd (u : UpperInode) : Prop :=
  ∀ index page, u.pages index = some page → pageStart index < u.iSize ∧
    ∀ i : Fin pageCacheSize, u.iSize ≤ pageStart index + i.val → page.data i = 0

/-- Zeroing the tail of a page changes nothing exactly when the tail is zero. -/
theorem zeroUserSegment_eq_self_iff (p : Page) (start : ℕ) :
    zeroUserSegment p start pageCacheSize = p ↔
      ∀ i : Fin pageCacheSize, start ≤ i.val → p i = 0 := by
  constructor
  · intro h i hi
    have hbyte := congrFun h i
    rw [zeroUserSegment, if_pos ⟨hi, i.isLt⟩] at hbyte
    exact hbyte.symm
  · intro h
    funext i
    rw [zeroUserSegment]
    split
    · rename_i hi
      exact (h i hi.1).symm
    · rfl

/-- When `truncate_setsize` leaves the inode as it is. -/
theorem truncateSetsize_eq_self_iff (u : UpperInode) (newsize : ℕ) :
    truncateSetsize u newsize = u ↔ newsize = u.iSize ∧ u.NothingPastEnd := by
  constructor
  · intro h
    have hsize : newsize = u.iSize := congrArg UpperInode.iSize h
    subst hsize
    refine ⟨rfl, fun index page hpage => ?_⟩
    have hindex := congrFun (congrArg UpperInode.pages h) index
    simp only [truncateSetsize, hpage] at hindex
    by_cases hstart : u.iSize ≤ pageStart index
    · rw [if_pos hstart] at hindex
      cases hindex
    · rw [if_neg hstart] at hindex
      have hdata := congrArg CachePage.data (Option.some.inj hindex)
      refine ⟨not_le.mp hstart, fun i hi => ?_⟩
      exact (zeroUserSegment_eq_self_iff _ _).mp hdata i (by omega)
  · rintro ⟨rfl, hnothing⟩
    obtain ⟨iSize, pages⟩ := u
    rw [truncateSetsize]
    congr 1
    funext index
    dsimp only
    cases hpage : pages index with
    | none => rw [Option.map_none, ite_self]
    | some page =>
        obtain ⟨hstart, hzero⟩ := hnothing index page hpage
        dsimp only at hstart hzero
        rw [if_neg (not_le.mpr hstart), Option.map_some,
          (zeroUserSegment_eq_self_iff _ _).mpr fun i hi => hzero i (by omega)]

section Setattr

variable {σ : Type} {fs : LowerFs σ} {changeOk newsizeOk : Option Errno} {ia : Iattr}
  {u : UpperInode} {s : σ}

variable (fs changeOk newsizeOk ia u s) in
/-- An attribute change returns 0 with both sizes as asked for, or as they were if none
was; or it returns an error with the upper inode and the lower file as they were. -/
def SetattrAtomic : Prop :=
  let r := wrapfsSetattr fs changeOk newsizeOk ia u s
  r.1 = 0 ∧ r.2.1.iSize = ia.size.getD u.iSize ∧ fs.size r.2.2 = ia.size.getD (fs.size s) ∨
    r.1 ≠ 0 ∧ r.2.1 = u ∧ r.2.2 = s

/-- The request passed on asks for the same size. -/
@[simp] theorem lowerIattr_size (ia : Iattr) : (lowerIattr ia).size = ia.size := by
  unfold lowerIattr
  split <;> rfl

/-- The exit of an upper check. -/
theorem setattrAtomic_of_refused {e : Errno}
    (h : wrapfsSetattr fs changeOk newsizeOk ia u s = (e.ret, u, s)) :
    SetattrAtomic fs changeOk newsizeOk ia u s := by
  rw [SetattrAtomic, h]
  exact Or.inr ⟨e.ret_ne_zero, rfl, rfl⟩

/-- Once the upper checks are passed, an attribute change that sets a size is atomic exactly
when the lower level agrees or the size set above changes nothing there. -/
theorem setattrAtomic_of_size {newsize : ℕ} (hsize : ia.size = some newsize)
    (hfail : ∀ s ia, (fs.notifyChange s ia).1 ≠ 0 → (fs.notifyChange s ia).2 = s) :
    SetattrAtomic fs none none ia u s ↔
      (fs.notifyChange s (lowerIattr ia)).1 = 0 ∨ newsize = u.iSize ∧ u.NothingPastEnd := by
  have hrun : wrapfsSetattr fs none none ia u s =
      ((fs.notifyChange s (lowerIattr ia)).1, truncateSetsize u newsize,
        (fs.notifyChange s (lowerIattr ia)).2) := by
    simp only [wrapfsSetattr, hsize]
  rw [SetattrAtomic, hrun, ← truncateSetsize_eq_self_iff]
  by_cases hok : (fs.notifyChange s (lowerIattr ia)).1 = 0
  · have hlower := fs.size_notifyChange s (lowerIattr ia) newsize (by simpa using hsize) hok
    refine iff_of_true (Or.inl ⟨hok, ?_, ?_⟩) (Or.inl hok)
    · rw [hsize]
      rfl
    · rw [hsize]
      exact hlower
  · have hkept := hfail s (lowerIattr ia) hok
    constructor
    · rintro (⟨h, -⟩ | ⟨-, h, -⟩)
      · exact absurd h hok
      · exact Or.inr h
    · rintro (h | h)
      · exact absurd h hok
      · exact Or.inr ⟨hok, h, hkept⟩

/-- An attribute change that sets no size is the lower file system's alone. -/
theorem setattrAtomic_of_no_size (hsize : ia.size = none)
    (hfail : ∀ s ia, (fs.notifyChange s ia).1 ≠ 0 → (fs.notifyChange s ia).2 = s)
    (hkeep : ∀ s ia, ia.size = none → (fs.notifyChange s ia).1 = 0 →
      fs.size (fs.notifyChange s ia).2 = fs.size s) :
    SetattrAtomic fs none newsizeOk ia u s := by
  have hrun : wrapfsSetattr fs none newsizeOk ia u s =
      ((fs.notifyChange s (lowerIattr ia)).1, u, (fs.notifyChange s (lowerIattr ia)).2) := by
    simp only [wrapfsSetattr, hsize]
  rw [SetattrAtomic, hrun, hsize]
  by_cases hok : (fs.notifyChange s (lowerIattr ia)).1 = 0
  · exact Or.inl ⟨hok, rfl, hkeep s (lowerIattr ia) (by simpa using hsize) hok⟩
  · exact Or.inr ⟨hok, rfl, hfail s (lowerIattr ia) hok⟩

variable (fs changeOk newsizeOk ia u s) in
/-- **When an attribute change is atomic.**  For a lower file system that changes nothing
when it refuses a change, and no size when it is asked for none: exactly when
`inode_change_ok` refuses it, or no size is set, or `inode_newsize_ok` refuses it, or the
lower `notify_change` succeeds, or the size is the present one and nothing is cached from
there on. -/
theorem setattrAtomic_iff
    (hfail : ∀ s ia, (fs.notifyChange s ia).1 ≠ 0 → (fs.notifyChange s ia).2 = s)
    (hkeep : ∀ s ia, ia.size = none → (fs.notifyChange s ia).1 = 0 →
      fs.size (fs.notifyChange s ia).2 = fs.size s) :
    SetattrAtomic fs changeOk newsizeOk ia u s ↔
      changeOk ≠ none ∨ ia.size = none ∨ newsizeOk ≠ none ∨
        (fs.notifyChange s (lowerIattr ia)).1 = 0 ∨
        ia.size = some u.iSize ∧ u.NothingPastEnd := by
  cases changeOk with
  | some e =>
      exact iff_of_true (setattrAtomic_of_refused (e := e) rfl) (Or.inl (Option.some_ne_none e))
  | none =>
      cases hsize : ia.size with
      | none =>
          exact iff_of_true (setattrAtomic_of_no_size hsize hfail hkeep) (Or.inr (Or.inl rfl))
      | some newsize =>
          cases newsizeOk with
          | some e =>
              refine iff_of_true (setattrAtomic_of_refused (e := e) ?_)
                (Or.inr (Or.inr (Or.inl (Option.some_ne_none e))))
              simp only [wrapfsSetattr, hsize]
          | none =>
              rw [setattrAtomic_of_size hsize hfail]
              simp

end Setattr

/-- `setattrAtomic_iff` for a truncation that the lower file system grants. -/
theorem setattrAtomic_iff_truncate :
    SetattrAtomic byteListFs none none ⟨some 0, none, false, false, none⟩
      ⟨1, fun _ => none⟩ [97] := by
  refine (setattrAtomic_iff byteListFs none none _ _ [97] ?_ ?_).mpr
    (Or.inr (Or.inr (Or.inr (Or.inl rfl))))
  · intro s ia h
    cases hsize : ia.size with
    | none => simp [byteListFs, hsize]
    | some n => simp [byteListFs, hsize] at h
  · intro s ia hsize _
    simp [byteListFs, hsize]

/-- A lower file system that refuses every attribute change. -/
def refusingFs : LowerFs (List Byte) :=
  { byteListFs with
    notifyChange := fun s _ => (Errno.EACCES.ret, s)
    size_notifyChange := fun _ _ _ _ h => absurd h (Errno.ret_ne_zero _) }

/-- A one-byte file is truncated and the lower file system refuses: the call returns an
error, the lower file has its byte, and the upper size is 0. -/
theorem setattr_not_atomic :
    (∀ s ia, (refusingFs.notifyChange s ia).2 = s) ∧
      ¬ SetattrAtomic refusingFs none none ⟨some 0, none, false, false, none⟩
        ⟨1, fun _ => none⟩ [97] := by
  refine ⟨fun _ _ => rfl, ?_⟩
  rintro (⟨hret, -⟩ | ⟨-, hupper, -⟩)
  · exact absurd hret (by decide)
  · exact absurd (congrArg UpperInode.iSize hupper) (by decide)

end Wrapfs
