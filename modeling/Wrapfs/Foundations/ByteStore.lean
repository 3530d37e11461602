import Mathlib.Data.List.Basic
import Mathlib.Tactic.Common

/-!
# Positional reads and writes on a finite sequence

A file is the list of its cells.  `pread` returns the cells from an offset on, short at the end;
`pwrite` overwrites from an offset on, growing the file as needed and filling the gap it may open
with `fill`.  A write of no cells leaves the file alone, whatever its offset: this is the POSIX
rule, and a definition that filled the gap first would get it wrong.

`getElem?_pwrite` is the one fact the rest is read off: a cell inside the written window comes
from the data, every other cell that existed is kept.  It is stated cell by cell, with `getElem?`,
because that is how a file is compared with something that is not a list, such as the pages of a
cache; the lengths are a separate lemma (`length_pwrite`), and together the two determine the
list.

Writes behind the end of the file are reduced to writes at its end by `pwrite_eq_pwrite_append`,
so that the lemmas about them (`getElem?_pwrite_of_lt`, `getElem?_pwrite_window`) are corollaries.
Two writes, one where the other ends, are one write of both (`pwrite_pwrite`); this is what a
write that is cut into pieces rests on.

The cells are of an arbitrary type.  Nothing here depends on their being bytes.
-/

namespace ByteStore

variable {β : Type*}

/-- At most `n` cells from offset `off`; fewer when the file ends before. -/
def pread (f : List β) (off n : ℕ) : List β :=
  (f.drop off).take n

/-- Overwrite `f` with `data` from offset `off` on. -/
def pwrite (fill : β) (f : List β) (off : ℕ) (data : List β) : List β :=
  if data.isEmpty then f
  else f.take off ++ List.replicate (off - f.length) fill ++ data ++
    f.drop (off + data.length)

@[simp] theorem pwrite_nil (fill : β) (f : List β) (off : ℕ) :
    pwrite fill f off [] = f := rfl

/-- A read is short at the end of the file. -/
theorem length_pread (f : List β) (off n : ℕ) :
    (pread f off n).length = min n (f.length - off) := by
  simp [pread]

/-- Cell by cell. -/
theorem getElem?_pread (f : List β) (off n i : ℕ) :
    (pread f off n)[i]? = if i < n then f[off + i]? else none := by
  rw [pread, List.getElem?_take]
  split
  · rw [List.getElem?_drop]
  · rfl

/-- A non-empty write ends where its data ends, or where the file already
ended. -/
theorem length_pwrite (fill : β) (f : List β) (off : ℕ) {data : List β}
    (hne : data ≠ []) :
    (pwrite fill f off data).length = max f.length (off + data.length) := by
  have hemp : data.isEmpty = false := by simpa using hne
  simp only [pwrite, hemp, Bool.false_eq_true, if_false, List.length_append,
    List.length_take, List.length_replicate, List.length_drop]
  omega

/-- The cells of a write at an offset inside the file (so that it opens no
gap): the window holds the data, everything else is what it was. -/
theorem getElem?_pwrite (fill : β) {f : List β} {off : ℕ} (data : List β)
    (hoff : off ≤ f.length) (i : ℕ) :
    (pwrite fill f off data)[i]? =
      if off ≤ i ∧ i < off + data.length then data[i - off]? else f[i]? := by
  cases hdata : data with
  | nil =>
      rw [pwrite_nil, if_neg]
      rintro ⟨h₁, h₂⟩
      simp only [List.length_nil] at h₂
      omega
  | cons b rest =>
      rw [← hdata]
      have hemp : data.isEmpty = false := by simp [hdata]
      have hgap : off - f.length = 0 := by omega
      have htake : (f.take off).length = off := by simp [hoff]
      simp only [pwrite, hemp, Bool.false_eq_true, if_false, hgap,
        List.replicate_zero, List.append_nil, List.append_assoc]
      rcases Nat.lt_or_ge i off with hlo | hlo
      · rw [List.getElem?_append_left (by omega), if_neg (by omega),
          List.getElem?_take, if_pos hlo]
      · rw [List.getElem?_append_right (by omega), htake]
        rcases Nat.lt_or_ge i (off + data.length) with hhi | hhi
        · rw [List.getElem?_append_left (by omega), if_pos ⟨hlo, hhi⟩]
        · rw [List.getElem?_append_right (by omega), if_neg (by omega),
            List.getElem?_drop]
          congr 1
          omega

/-- Inside the written window a write is read back. -/
theorem getElem?_pwrite_of_mem (fill : β) {f : List β} {off : ℕ} {data : List β}
    (hoff : off ≤ f.length) {i : ℕ} (hi : i < data.length) :
    (pwrite fill f off data)[off + i]? = data[i]? := by
  rw [getElem?_pwrite fill data hoff, if_pos (by omega), Nat.add_sub_cancel_left]

/-- Outside the written window the file is unchanged. -/
theorem getElem?_pwrite_of_not_mem (fill : β) {f : List β} {off : ℕ}
    {data : List β} (hoff : off ≤ f.length) {i : ℕ}
    (hi : ¬ (off ≤ i ∧ i < off + data.length)) :
    (pwrite fill f off data)[i]? = f[i]? := by
  rw [getElem?_pwrite fill data hoff, if_neg hi]

/-- A write that opens a gap is a write to the file with the gap filled. -/
theorem pwrite_eq_pwrite_append (fill : β) (f : List β) (off : ℕ) {data : List β}
    (hne : data ≠ []) :
    pwrite fill f off data =
      pwrite fill (f ++ List.replicate (off - f.length) fill) off data := by
  have hemp : data.isEmpty = false := by simpa using hne
  have hpad : off - (f ++ List.replicate (off - f.length) fill).length = 0 := by
    simp only [List.length_append, List.length_replicate]
    omega
  simp only [pwrite, hemp, Bool.false_eq_true, if_false, hpad, List.replicate_zero,
    List.append_nil]
  rcases Nat.lt_or_ge f.length off with hgap | hgap
  · have htake : (f ++ List.replicate (off - f.length) fill).take off =
        f ++ List.replicate (off - f.length) fill := by
      apply List.take_of_length_le
      simp only [List.length_append, List.length_replicate]
      omega
    have hdrop : (f ++ List.replicate (off - f.length) fill).drop (off + data.length) = [] := by
      apply List.drop_of_length_le
      simp only [List.length_append, List.length_replicate]
      omega
    rw [htake, hdrop, List.take_of_length_le (Nat.le_of_lt hgap), List.drop_of_length_le (by omega)]
  · have hnone : off - f.length = 0 := by omega
    rw [hnone, List.replicate_zero, List.append_nil, List.append_nil]

/-- Below a write the file is what it was, or filled. -/
theorem getElem?_pwrite_of_lt (fill : β) (f : List β) {off : ℕ} {data : List β}
    (hne : data ≠ []) {i : ℕ} (hi : i < off) :
    (pwrite fill f off data)[i]? = some (f[i]?.getD fill) := by
  rw [pwrite_eq_pwrite_append fill f off hne, getElem?_pwrite_of_not_mem]
  · rcases Nat.lt_or_ge i f.length with hlt | hge
    · rw [List.getElem?_append_left hlt, List.getElem?_eq_getElem hlt]
      rfl
    · rw [List.getElem?_append_right hge, List.getElem?_replicate, if_pos (by omega),
        List.getElem?_eq_none hge]
      rfl
  · simp only [List.length_append, List.length_replicate]
    omega
  · omega

/-- Inside the window a write is read back, even behind the end of the file. -/
theorem getElem?_pwrite_window (fill : β) (f : List β) {off : ℕ} {data : List β} {i : ℕ}
    (hi : i < data.length) : (pwrite fill f off data)[off + i]? = data[i]? := by
  have hne : data ≠ [] := List.ne_nil_of_length_pos (Nat.zero_lt_of_lt hi)
  rw [pwrite_eq_pwrite_append fill f off hne, getElem?_pwrite_of_mem fill _ hi]
  simp only [List.length_append, List.length_replicate]
  omega

/-- A cell after a write was there before, is filled in, or was written. -/
theorem getElem?_pwrite_eq_some (fill : β) {f : List β} {off : ℕ} {data : List β} {j : ℕ} {b : β}
    (h : (pwrite fill f off data)[j]? = some b) :
    f[j]? = some b ∨ b = fill ∨ ∃ i, j = off + i ∧ data[i]? = some b := by
  by_cases hne : data = []
  · rw [hne, pwrite_nil] at h
    exact Or.inl h
  rcases Nat.lt_or_ge j off with hlo | hlo
  · rw [getElem?_pwrite_of_lt fill f hne hlo] at h
    cases hf : f[j]? with
    | none =>
        rw [hf] at h
        exact Or.inr (Or.inl (Option.some.inj h).symm)
    | some b' =>
        rw [hf] at h
        exact Or.inl h
  · obtain ⟨i, rfl⟩ := Nat.exists_eq_add_of_le hlo
    rcases Nat.lt_or_ge i data.length with hi | hi
    · rw [getElem?_pwrite_window fill f hi] at h
      exact Or.inr (Or.inr ⟨i, rfl, h⟩)
    · -- behind the write there is only what was behind it
      have hlt : off + i < (pwrite fill f off data).length := by
        by_contra hge
        rw [List.getElem?_eq_none (Nat.le_of_not_lt hge)] at h
        cases h
      rw [length_pwrite fill f off hne] at hlt
      rw [getElem?_pwrite_of_not_mem fill (by omega) (by omega)] at h
      exact Or.inl h

/-- A write at the end of the file appends. -/
theorem pwrite_length (fill : β) (f data : List β) :
    pwrite fill f f.length data = f ++ data := by
  cases data with
  | nil => rw [pwrite_nil, List.append_nil]
  | cons b rest => simp [pwrite]

/-- Two writes, the second where the first ends, are one. -/
theorem pwrite_pwrite (fill : β) {f : List β} {off : ℕ} (hoff : off ≤ f.length)
    (data₁ data₂ : List β) :
    pwrite fill (pwrite fill f off data₁) (off + data₁.length) data₂ =
      pwrite fill f off (data₁ ++ data₂) := by
  have hend : off + data₁.length ≤ (pwrite fill f off data₁).length := by
    cases data₁ with
    | nil => exact hoff
    | cons b rest =>
        rw [length_pwrite fill f off (List.cons_ne_nil b rest)]
        exact Nat.le_max_right _ _
  ext1 i
  rw [getElem?_pwrite fill data₂ hend, getElem?_pwrite fill data₁ hoff,
    getElem?_pwrite fill (data₁ ++ data₂) hoff, List.length_append]
  by_cases hsecond : off + data₁.length ≤ i ∧ i < off + data₁.length + data₂.length
  · rw [if_pos hsecond, if_pos (by omega), List.getElem?_append_right (by omega)]
    congr 1
    omega
  · rw [if_neg hsecond]
    by_cases hfirst : off ≤ i ∧ i < off + data₁.length
    · rw [if_pos hfirst, if_pos (by omega), List.getElem?_append_left (by omega)]
    · rw [if_neg hfirst, if_neg (by omega)]

end ByteStore
