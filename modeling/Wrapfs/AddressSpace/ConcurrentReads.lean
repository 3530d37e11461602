import Wrapfs.AddressSpace.PageWrite
import Wrapfs.AddressSpace.Volume

/-!
# Reads while a write is in progress

`write` holds the mutex of the inode from its first piece to its last, so there is one writer at a
time.  `read` takes no such lock.  It asks for a page lock only to fill a page that is not
uptodate; a page that is uptodate is copied to the user as it is, locked or not.  And
`wrapfs_write_begin` marks its page uptodate *before* the user's bytes are copied into it.

`sharedCall` splits a piece of a write into `wrapfs_write_begin`, the copy and `wrapfs_write_end`,
and lets reads and evictions come between any two of them.

* If the page of the piece was uptodate before, or lies behind the end of the file, a reader
  cannot tell: `interleaved_reads_refine` compares the machine with a list of bytes that changes
  at the copy, and grows at the end of the piece, and every read returns the bytes of that list.
* If it was not, a read that comes before the copy is served what `wrapfs_write_begin` has left in
  a page just allocated: `read_before_copy_shows_page`.  The bytes are those the memory held when
  it was last used, for whatever purpose.

## The invariant

While a piece is in progress the inode is not at rest, and none of what is known about inodes at
rest applies to it.  But it is one at rest with a single page *set aside* (`MidWrite`): reads and
evictions of other pages commute with that, the page itself is locked, so it is not reclaimed, and
uptodate, so it is served as it is.  `Suspended` is what is known of the inode without the piece,
and `Suspended.shows` what the page set aside shows of the file.  With that, a read in the middle
of a write is a read of an inode at rest (`MidWrite.read`), and the end of the piece is the end of
a whole piece (`wrapfsWriteEnd_of_copied`), to which `Wrapfs.AddressSpace.AlignedUse` applies.

The copy of the user's bytes is one step here.  In the kernel a reader may see half of it, which
is so on every file system of this kernel and not a matter of this one.
-/

namespace Wrapfs

open CounterMode Ledger ByteStore Runs

/-! ## The machine -/

/-- A file that is read while it is written: the inode, and the piece in progress, with whether
the user's bytes have been copied. -/
structure SharedFile where
  ino : Inode
  writer : Option (WriteReq × Bool)

/-- The steps of a piece of a write, and what others do. -/
inductive SharedAction where
  | writeBegin (a : WriteReq)
  | userCopy
  | writeEnd
  | read (index : ℕ) (scratch stale : Page)
  | evict (index : ℕ)

/-- The bytes of a page that `read` copies to the user. -/
def deliveredBytes (page : Page) (iSize index : ℕ) : List Byte :=
  pageBytes page 0 (min pageCacheSize (iSize - pageStart index))

/-- One step, with key `k` set and every call succeeding; the answer is what a read delivers. -/
def sharedCall (E : BlockCipher) (k : Key) (s : SharedFile) :
    SharedAction → Except Fault (List Byte × SharedFile)
  | .writeBegin a =>
      match s.writer with
      -- the inode's mutex is taken
      | some _ => .error .blocked
      | none =>
          match wrapfsWriteBegin (some k) (some a.stale) s.ino a.pos a.len with
          | .error fault => .error fault
          | .ok (ret, ino) => .ok ([], ⟨ino, if ret = 0 then some (a, false) else none⟩)
  | .userCopy =>
      match s.writer with
      | some (a, false) => .ok ([], ⟨copyFromUser s.ino a.pos a.data, some (a, true)⟩)
      | _ => .error .blocked
  | .writeEnd =>
      match s.writer with
      | some (a, true) =>
          match s.ino.pages a.index with
          | none => .error .badPointer
          | some page =>
              match wrapfsWriteEnd E (some k) .plain ⟨some a.scratch, .succeed, .full⟩ s.ino a.pos
                  a.data.length a.index page with
              | .error fault => .error fault
              | .ok r => .ok ([], ⟨r.inode, none⟩)
      | _ => .error .blocked
  | .read index scratch stale =>
      match readCachePage E (some k) .plain (.succeed scratch) stale s.ino index with
      | .error fault => .error fault
      | .ok (.error _, ino) => .ok ([], ⟨ino, s.writer⟩)
      | .ok (.ok page, ino) => .ok (deliveredBytes page ino.iSize index, ⟨ino, s.writer⟩)
  | .evict index => .ok ([], ⟨evictPage s.ino index, s.writer⟩)

/-- The page of the piece is uptodate, or none of it is in the file: readers are not shown what is
prepared in it. -/
def ServesReads (ino : Inode) (a : WriteReq) : Prop :=
  (∃ page, ino.pages a.index = some page ∧ page.uptodate = true) ∨ ino.iSize ≤ pageStart a.index

/-- The steps come in order, and the pieces are aligned ones that do not disturb readers. -/
def SharedUse (s : SharedFile) : SharedAction → Prop
  | .writeBegin a => s.writer = none ∧ AlignedWrite s.ino a ∧ ServesReads s.ino a
  | .userCopy => ∃ a, s.writer = some (a, false)
  | .writeEnd => ∃ a, s.writer = some (a, true)
  | .read _ _ _ => True
  | .evict _ => True

/-! ## The plain file -/

/-- A file of bytes with the write in progress. -/
structure PlainShared where
  content : List Byte
  writer : Option (WriteReq × Bool)

/-- What readers see: once the bytes are copied, the file with the piece in it, but no longer than
before. -/
def PlainShared.visible (t : PlainShared) : List Byte :=
  match t.writer with
  | some (a, true) => (pwrite 0 t.content a.pos a.data).take t.content.length
  | _ => t.content

/-- The same step on the plain file. -/
def plainSharedCall (t : PlainShared) : SharedAction → List Byte × PlainShared
  | .writeBegin a => ([], { t with writer := some (a, false) })
  | .userCopy => ([], { t with writer := t.writer.map fun w => (w.1, true) })
  | .writeEnd =>
      match t.writer with
      | some (a, _) => ([], ⟨pwrite 0 t.content a.pos a.data, none⟩)
      | none => ([], t)
  | .read index _ _ => (pread t.visible (pageStart index) pageCacheSize, t)
  | .evict _ => ([], t)

/-! ## One page set aside

The invariant while a piece is in progress: the inode is one at rest, with the page of the piece
set aside. -/

section Aside

variable {E : BlockCipher} {k : Key} {ino ino₀ : Inode} {content : List Byte} {a : WriteReq}

/-- Two pages are stored in either order. -/
theorem Inode.setPage_comm (ino : Inode) {i j : ℕ} (hij : i ≠ j) (p q : CachePage) :
    (ino.setPage i p).setPage j q = (ino.setPage j q).setPage i p := by
  unfold Inode.setPage
  rw [Function.update_comm hij]

/-- Evicting another page leaves the one set aside. -/
theorem evictPage_setPage_of_ne {i j : ℕ} (hij : j ≠ i) (p : CachePage) :
    evictPage (ino.setPage i p) j = (evictPage ino j).setPage i p := by
  unfold evictPage
  rw [Inode.setPage_pages_of_ne _ _ hij]
  cases ino.pages j with
  | none => rfl
  | some page =>
      by_cases hlocked : page.locked = true
      · simp only [hlocked, if_true]
      · simp only [hlocked, if_false, Inode.setPage, Bool.false_eq_true,
          Function.update_comm hij.symm]

/-- A locked page is not evicted. -/
theorem evictPage_setPage_self {i : ℕ} {p : CachePage} (hlocked : p.locked = true) :
    evictPage (ino.setPage i p) i = ino.setPage i p := by
  unfold evictPage
  simp only [Inode.setPage_pages_self, hlocked, if_true]

/-- The other pages stay. -/
theorem evictPage_pages_of_ne {i j : ℕ} (hij : j ≠ i) : (evictPage ino i).pages j = ino.pages j := by
  unfold evictPage
  cases ino.pages i with
  | none => rfl
  | some page =>
      by_cases hlocked : page.locked = true
      · simp only [hlocked, if_true]
      · simp only [hlocked, if_false, Bool.false_eq_true, Function.update_of_ne hij]

/-- The locks of the other pages are as they were. -/
theorem Unlocked.setPage_of_ne {i j : ℕ} (hfree : Unlocked ino j) (hij : j ≠ i) (p : CachePage) :
    Unlocked (ino.setPage i p) j := by
  intro page hpage
  rw [Inode.setPage_pages_of_ne _ _ hij] at hpage
  exact hfree page hpage

/-- So is what they show. -/
theorem shownPage_setPage_of_ne {i j : ℕ} (hij : j ≠ i) {p : CachePage} {scratch : Page} :
    shownPage E k (ino.setPage i p) j scratch = shownPage E k ino j scratch := by
  unfold shownPage
  rw [Inode.setPage_pages_of_ne _ _ hij]
  rfl

/-- The inode as it would be without the piece in progress. -/
structure Suspended (E : BlockCipher) (k : Key) (ino₀ : Inode) (content : List Byte)
    (a : WriteReq) : Prop where
  rest : AtRest ino₀
  holds : Holds E k ino₀ content
  aligned : AlignedWrite ino₀ a
  serves : ServesReads ino₀ a

/-- What the page of the piece holds. -/
def asidePage (ino₀ : Inode) (a : WriteReq) (copied : Bool) : Page :=
  if copied then copiedPage ino₀ a.toChunk a.stale else begunPage ino₀ a.toChunk a.stale

/-- A piece in progress. -/
def MidWrite (E : BlockCipher) (k : Key) (ino : Inode) (content : List Byte) (a : WriteReq)
    (copied : Bool) : Prop :=
  ∃ ino₀ refs, Suspended E k ino₀ content a ∧
    ino = ino₀.setPage a.index ⟨asidePage ino₀ a copied, true, true, refs⟩

/-- Nothing but the page of the piece and the size matters to the piece. -/
theorem Suspended.congr (h : Suspended E k ino₀ content a) (hrest : AtRest ino)
    (hholds : Holds E k ino content) (hpage : ino.pages a.index = ino₀.pages a.index) :
    Suspended E k ino content a ∧ ∀ copied, asidePage ino a copied = asidePage ino₀ a copied := by
  have hsize : ino.iSize = ino₀.iSize := hholds.iSize.trans h.holds.iSize.symm
  have hbegun : begunPage ino a.toChunk a.stale = begunPage ino₀ a.toChunk a.stale := by
    unfold begunPage
    rw [hpage]
  refine ⟨⟨hrest, hholds, ⟨⟨h.aligned.inPage, ?_⟩, h.aligned.aligned, ?_⟩, ?_⟩, fun copied => ?_⟩
  · rw [hsize]
    exact h.aligned.pos_le
  · rw [hsize, hpage]
    exact h.aligned.covers
  · unfold ServesReads
    rw [hsize, hpage]
    exact h.serves
  · unfold asidePage copiedPage
    rw [hbegun]

/-- What readers see of a plain file with a piece of it copied, byte by byte. -/
theorem getElem?_visible (hpos : a.pos ≤ content.length) {off : ℕ} (hoff : off < content.length) :
    (PlainShared.visible ⟨content, some (a, true)⟩)[off]? =
      if a.pos ≤ off ∧ off < a.pos + a.data.length then a.data[off - a.pos]? else content[off]? := by
  show ((pwrite 0 content a.pos a.data).take content.length)[off]? = _
  rw [List.getElem?_take, if_pos hoff, getElem?_pwrite 0 a.data hpos]

/-- The size changes with the end of the piece only. -/
theorem MidWrite.iSize {copied : Bool} (h : MidWrite E k ino content a copied) :
    ino.iSize = content.length := by
  obtain ⟨ino₀, refs, hsus, rfl⟩ := h
  exact hsus.holds.iSize

/-- Readers see a file of the same length until the piece ends. -/
theorem length_visible (content : List Byte) (a : WriteReq) (copied : Bool) :
    (PlainShared.visible ⟨content, some (a, copied)⟩).length = content.length := by
  cases copied with
  | false => rfl
  | true =>
      show ((pwrite 0 content a.pos a.data).take content.length).length = _
      rw [List.length_take]
      refine min_eq_left ?_
      cases a.data with
      | nil => rw [pwrite_nil]
      | cons b rest =>
          rw [length_pwrite 0 _ _ (List.cons_ne_nil b rest)]
          exact le_max_left _ _

/-- The page of the piece shows what readers are to see of it. -/
theorem Suspended.shows (h : Suspended E k ino₀ content a) (copied : Bool) {i : Fin pageCacheSize}
    (hi : pageStart a.index + i.val < content.length) :
    (PlainShared.visible ⟨content, some (a, copied)⟩)[pageStart a.index + i.val]? =
      some (asidePage ino₀ a copied i) := by
  obtain ⟨page, hpage, hup⟩ : ∃ page, ino₀.pages a.index = some page ∧ page.uptodate = true := by
    rcases h.serves with hup | hend
    · exact hup
    · rw [h.holds.iSize] at hend
      omega
  have hold : content[pageStart a.index + i.val]? = some (page.data i) :=
    h.holds.cached a.index page hpage hup i (by rwa [h.holds.iSize])
  cases copied with
  | false =>
      have hbegun : begunPage ino₀ a.toChunk a.stale = page.data := by
        simp only [begunPage, hpage, preparedPage, hup, Bool.true_eq_false, false_and, if_false]
      rw [asidePage, if_neg Bool.false_ne_true, hbegun]
      exact hold
  | true =>
      have hsplit := a.toChunk.pos_eq
      have hle : a.pos ≤ content.length := h.holds.iSize ▸ h.aligned.pos_le
      rw [asidePage, if_pos rfl, copiedPage_of_inPage h.aligned.inPage,
        getElem?_visible hle hi]
      by_cases hmem : pageOffset a.pos ≤ i.val ∧ i.val < pageOffset a.pos + a.data.length
      · rw [if_pos (by omega)]
        have hdata : a.data[i.val - pageOffset a.pos]? = some (writtenPage ino₀ a.toChunk i) :=
          storeBytes_of_mem _ hmem
        rw [← hdata]
        congr 1
        omega
      · rw [if_neg (by omega), hold, writtenPage, storeBytes_of_not_mem _ hmem]
        simp only [priorByte, hpage, hup, if_true]

/-- The other pages show what they showed. -/
theorem Suspended.visible_of_ne (h : Suspended E k ino₀ content a) (copied : Bool) {index : ℕ}
    (hindex : index ≠ a.index) {i : Fin pageCacheSize}
    (hi : pageStart index + i.val < content.length) :
    (PlainShared.visible ⟨content, some (a, copied)⟩)[pageStart index + i.val]? =
      content[pageStart index + i.val]? := by
  cases copied with
  | false => rfl
  | true =>
      have hle : a.pos ≤ content.length := h.holds.iSize ▸ h.aligned.pos_le
      have hdisj := pageStart_disjoint hindex i
      have hsplit := a.toChunk.pos_eq
      obtain ⟨hfits, hfull⟩ := h.aligned.inPage
      rw [getElem?_visible hle hi, if_neg]
      omega

/-- A read delivers the bytes its page has of the file. -/
theorem deliveredBytes_eq {page : Page} {v : List Byte} {iSize index : ℕ} (hsize : iSize = v.length)
    (hpage : ∀ i : Fin pageCacheSize, pageStart index + i.val < v.length →
      v[pageStart index + i.val]? = some (page i)) :
    deliveredBytes page iSize index = pread v (pageStart index) pageCacheSize := by
  ext1 j
  rw [deliveredBytes, getElem?_pread]
  rcases Nat.lt_or_ge j (min pageCacheSize (iSize - pageStart index)) with hj | hj
  · have hin : 0 + j < pageCacheSize := by omega
    rw [getElem?_pageBytes _ hj hin, if_pos (by omega)]
    have hbyte := hpage ⟨0 + j, hin⟩ (by dsimp only; omega)
    rw [← hbyte]
    congr 1
    dsimp only
    omega
  · rw [List.getElem?_eq_none (by rwa [length_pageBytes])]
    split
    · rw [List.getElem?_eq_none (by omega)]
    · rfl

/-- `wrapfs_write_end` on a page set aside leaves what the whole piece leaves. -/
theorem wrapfsWriteEnd_of_copied (E : BlockCipher) (k : Key) (ino : Inode) {w : Chunk}
    (hw : w.InPage) (stale scratch : Page) (refs : ℕ) :
    ∃ r, wrapfsWriteEnd E (some k) .plain ⟨some scratch, .succeed, .full⟩
        (ino.setPage w.index ⟨copiedPage ino w stale, true, true, refs⟩) w.pos w.data.length w.index
        ⟨copiedPage ino w stale, true, true, refs⟩ = .ok r ∧
      r.inode = written E k ino w (refs - 1) := by
  simp only [wrapfsWriteEnd, OpenFile.plain_info, wrapfsEncryptPageNew_dst]
  refine ⟨_, rfl, ?_⟩
  rw [copiedPage_of_inPage hw, writeEndStore_of_full, hw.full, written, writtenLower]
  simp [Inode.setPage, vfsWrite]

end Aside

/-! ## Refinement -/

/-- The machine and the plain file in step. -/
structure Shares (E : BlockCipher) (k : Key) (s : SharedFile) (t : PlainShared) : Prop where
  writer : s.writer = t.writer
  idle : s.writer = none → AtRest s.ino ∧ Holds E k s.ino t.content
  busy : ∀ a copied, s.writer = some (a, copied) → MidWrite E k s.ino t.content a copied

section Refinement

variable {E : BlockCipher} {k : Key} {s : SharedFile} {t : PlainShared}

/-- Between pieces. -/
theorem shares_idle {ino : Inode} {content : List Byte} (hrest : AtRest ino)
    (hholds : Holds E k ino content) : Shares E k ⟨ino, none⟩ ⟨content, none⟩ where
  writer := rfl
  idle _ := ⟨hrest, hholds⟩
  busy _ _ h := by cases h

/-- Within one. -/
theorem shares_busy {ino : Inode} {content : List Byte} {a : WriteReq} {copied : Bool}
    (h : MidWrite E k ino content a copied) :
    Shares E k ⟨ino, some (a, copied)⟩ ⟨content, some (a, copied)⟩ where
  writer := rfl
  idle h := by cases h
  busy _ _ hw := by
    cases hw
    exact h

/-- A read while nothing is written returns the file's bytes, and leaves a file at rest that holds
the same. -/
theorem readCachePage_holds {ino : Inode} {content : List Byte} (hrest : AtRest ino)
    (hholds : Holds E k ino content) (index : ℕ) (scratch stale : Page) :
    ∃ page ino', readCachePage E (some k) .plain (.succeed scratch) stale ino index =
        .ok (.ok page, ino') ∧
      (∀ i : Fin pageCacheSize, pageStart index + i.val < content.length →
        content[pageStart index + i.val]? = some (page i)) ∧
      AtRest ino' ∧ Holds E k ino' content := by
  obtain ⟨hagree, hbyte⟩ := holds_iff.mp hholds
  obtain ⟨ino', hread, hino'⟩ := readCachePage_eq (E := E) (k := k) OpenFile.plain_info
    (hrest.unlocked index) scratch stale
  refine ⟨_, ino', hread, fun i hi => ?_, ?_⟩
  · rw [← hbyte]
    exact fileByte_eq_shownPage hagree scratch (by rwa [hholds.iSize])
  · rcases hino' with rfl | ⟨refs, rfl⟩
    · exact ⟨hrest, hholds⟩
    · exact ⟨hrest.setPage rfl rfl, holds_iff.mpr ⟨hagree.readpage scratch refs, hbyte⟩⟩

/-- A read while a piece is in progress: the page of the piece is served as it is, the others as
if the piece were not there. -/
theorem MidWrite.read {ino : Inode} {content : List Byte} {a : WriteReq} {copied : Bool}
    (h : MidWrite E k ino content a copied) (index : ℕ) (scratch stale : Page) :
    ∃ page ino', readCachePage E (some k) .plain (.succeed scratch) stale ino index =
        .ok (.ok page, ino') ∧
      (∀ i : Fin pageCacheSize, pageStart index + i.val < content.length →
        (PlainShared.visible ⟨content, some (a, copied)⟩)[pageStart index + i.val]? =
          some (page i)) ∧
      MidWrite E k ino' content a copied := by
  obtain ⟨ino₀, refs, hsus, rfl⟩ := h
  by_cases hindex : index = a.index
  · subst hindex
    refine ⟨asidePage ino₀ a copied, ino₀.setPage a.index ⟨asidePage ino₀ a copied, true, true, refs⟩,
      ?_, fun i hi => hsus.shows copied hi, ino₀, refs, hsus, rfl⟩
    simp only [readCachePage, Inode.setPage_pages_self, if_true]
  · obtain ⟨hagree, hbyte⟩ := holds_iff.mp hsus.holds
    have hfree := (hsus.rest.unlocked index).setPage_of_ne hindex
      ⟨asidePage ino₀ a copied, true, true, refs⟩
    obtain ⟨ino', hread, hino'⟩ := readCachePage_eq (E := E) (k := k) OpenFile.plain_info hfree
      scratch stale
    refine ⟨_, ino', hread, fun i hi => ?_, ?_⟩
    · rw [hsus.visible_of_ne copied hindex hi, ← hbyte, shownPage_setPage_of_ne hindex]
      exact fileByte_eq_shownPage hagree scratch (by rwa [hsus.holds.iSize])
    · rcases hino' with rfl | ⟨refs', rfl⟩
      · exact ⟨ino₀, refs, hsus, rfl⟩
      · -- the page read goes below the one set aside
        obtain ⟨hsus', haside⟩ := hsus.congr (hsus.rest.setPage rfl rfl)
          (holds_iff.mpr ⟨hagree.readpage scratch refs', hbyte⟩)
          (Inode.setPage_pages_of_ne ino₀ _ (Ne.symm hindex))
        refine ⟨_, refs, hsus', ?_⟩
        rw [haside, Inode.setPage_comm ino₀ hindex]
        rfl

/-- An eviction while a piece is in progress: the page of the piece stays. -/
theorem MidWrite.evict {ino : Inode} {content : List Byte} {a : WriteReq} {copied : Bool}
    (h : MidWrite E k ino content a copied) (index : ℕ) :
    MidWrite E k (evictPage ino index) content a copied := by
  obtain ⟨ino₀, refs, hsus, rfl⟩ := h
  by_cases hindex : index = a.index
  · subst hindex
    rw [evictPage_setPage_self rfl]
    exact ⟨ino₀, refs, hsus, rfl⟩
  · obtain ⟨hagree, hbyte⟩ := holds_iff.mp hsus.holds
    have hholds : Holds E k (evictPage ino₀ index) content :=
      holds_iff.mpr ⟨hagree.evict, fun off => by rw [evictPage_lower, hbyte]⟩
    obtain ⟨hsus', haside⟩ := hsus.congr hsus.rest.evict hholds
      (evictPage_pages_of_ne (Ne.symm hindex))
    refine ⟨_, refs, hsus', ?_⟩
    rw [haside, evictPage_setPage_of_ne hindex]

/-- **A step.**  The machine takes every step of a disciplined use, with the plain file's answer. -/
theorem Shares.call (h : Shares E k s t) {a : SharedAction} (ha : SharedUse s a) :
    ∃ s', sharedCall E k s a = .ok ((plainSharedCall t a).1, s') ∧
      Shares E k s' (plainSharedCall t a).2 := by
  obtain ⟨ino, writer⟩ := s
  obtain ⟨content, writer'⟩ := t
  obtain rfl : writer = writer' := h.writer
  cases a with
  | writeBegin a =>
      obtain ⟨hnone, haligned, hserves⟩ := ha
      obtain rfl : writer = none := hnone
      obtain ⟨hrest, hholds⟩ := h.idle rfl
      obtain ⟨refs, hbegin⟩ := wrapfsWriteBegin_of_unlocked k a.stale (hrest.unlocked a.index)
      refine ⟨_, ?_, shares_busy ⟨ino, refs, ⟨hrest, hholds, haligned, hserves⟩, rfl⟩⟩
      simp only [sharedCall, hbegin, if_true]
      rfl
  | userCopy =>
      obtain ⟨a, hwriter⟩ := ha
      obtain rfl : writer = some (a, false) := hwriter
      obtain ⟨ino₀, refs, hsus, hino⟩ := h.busy a false rfl
      obtain rfl : ino = _ := hino
      refine ⟨_, rfl, shares_busy ⟨ino₀, refs, hsus, ?_⟩⟩
      exact copyFromUser_setPage ino₀ a.toChunk _
  | writeEnd =>
      obtain ⟨a, hwriter⟩ := ha
      obtain rfl : writer = some (a, true) := hwriter
      obtain ⟨ino₀, refs, hsus, hino⟩ := h.busy a true rfl
      obtain rfl : ino = _ := hino
      obtain ⟨hagree, hbyte⟩ := holds_iff.mp hsus.holds
      obtain ⟨r, hr, hinode⟩ := wrapfsWriteEnd_of_copied E k ino₀ hsus.aligned.inPage a.stale
        a.scratch refs
      refine ⟨⟨r.inode, none⟩, ?_, ?_⟩
      · simp only [sharedCall, Inode.setPage_pages_self, asidePage, if_true]
        rw [hr]
        rfl
      · rw [hinode]
        refine shares_idle (hsus.rest.written _) (holds_iff.mpr ⟨?_, ?_⟩)
        · exact (agrees_written_iff hagree hsus.aligned.inPage hsus.aligned.pos_le _).mpr
            hsus.aligned.storesChange
        · exact fileByte_aligned hsus.aligned hsus.holds.iSize hagree.size hbyte
  | read index scratch stale =>
      cases hwriter : writer with
      | none =>
          subst hwriter
          obtain ⟨hrest, hholds⟩ := h.idle rfl
          obtain ⟨page, ino', hread, hpage, hrest', hholds'⟩ :=
            readCachePage_holds hrest hholds index scratch stale
          refine ⟨⟨ino', none⟩, ?_, shares_idle hrest' hholds'⟩
          simp only [sharedCall, hread]
          rw [deliveredBytes_eq hholds'.iSize hpage]
          rfl
      | some w =>
          obtain ⟨a, copied⟩ := w
          subst hwriter
          obtain ⟨page, ino', hread, hpage, hmid⟩ :=
            (h.busy a copied rfl).read index scratch stale
          have hlen := length_visible content a copied
          refine ⟨⟨ino', some (a, copied)⟩, ?_, shares_busy hmid⟩
          simp only [sharedCall, hread]
          rw [deliveredBytes_eq (hmid.iSize.trans hlen.symm) fun i hi => hpage i (hlen ▸ hi)]
          rfl
  | evict index =>
      cases hwriter : writer with
      | none =>
          subst hwriter
          obtain ⟨hrest, hholds⟩ := h.idle rfl
          obtain ⟨hagree, hbyte⟩ := holds_iff.mp hholds
          refine ⟨_, rfl, shares_idle hrest.evict (holds_iff.mpr ⟨hagree.evict, fun off => ?_⟩)⟩
          rw [evictPage_lower, hbyte]
      | some w =>
          subst hwriter
          exact ⟨_, rfl, shares_busy ((h.busy w.1 w.2 rfl).evict index)⟩

/-- What the step leads to. -/
theorem Shares.next (h : Shares E k s t) {a : SharedAction} {r : List Byte} {s' : SharedFile}
    (hcall : sharedCall E k s a = .ok (r, s')) (ha : SharedUse s a) :
    Shares E k s' (plainSharedCall t a).2 := by
  obtain ⟨s₁, hs₁, hshares⟩ := h.call ha
  obtain ⟨-, rfl⟩ := Prod.mk.inj (Except.ok.inj (hs₁.symm.trans hcall))
  exact hshares

end Refinement

/-- What `wrapfs_write_begin` leaves in a page just allocated: what the memory held inside the
piece, zeros elsewhere. -/
theorem begunPage_of_none {ino : Inode} {w : Chunk} (hnone : ino.pages w.index = none)
    (hfits : pageOffset w.pos + w.len ≤ pageCacheSize) (stale : Page) (i : Fin pageCacheSize) :
    begunPage ino w stale i =
      if pageOffset w.pos ≤ i.val ∧ i.val < pageOffset w.pos + w.len then stale i else 0 := by
  -- the page after a copy of which nothing succeeded
  have hout : ¬ Chunk.Covers ⟨w.pos, w.len, []⟩ i := fun h => Nat.not_lt.mpr h.1 h.2
  have hcopied := copiedPage_apply (w := ⟨w.pos, w.len, []⟩) hnone hfits stale hout
  rw [copiedPage, storeBytes_of_not_mem _ hout] at hcopied
  exact hcopied

/-- **A reader may be shown what was in memory.**  Let a piece be written into a page of the file
that is not cached.  Between `wrapfs_write_begin` and the copy, a read of the page is served from
the page as it was allocated: inside the piece the bytes that were in memory, and zeros in place of
all the other bytes the file has there. -/
theorem read_before_copy_shows_page (E : BlockCipher) (k : Key) {ino : Inode} {a : WriteReq}
    (hnone : ino.pages a.index = none) (hfits : pageOffset a.pos + a.len ≤ pageCacheSize) :
    ∃ s, sharedCall E k ⟨ino, none⟩ (.writeBegin a) = .ok ([], s) ∧
      ∀ scratch fresh, ∃ bytes, sharedCall E k s (.read a.index scratch fresh) = .ok (bytes, s) ∧
        bytes.length = min pageCacheSize (ino.iSize - pageStart a.index) ∧
        ∀ i : Fin pageCacheSize, i.val < bytes.length →
          bytes[i.val]? = some
            (if pageOffset a.pos ≤ i.val ∧ i.val < pageOffset a.pos + a.len then a.stale i
              else 0) := by
  have hfree : Unlocked ino a.index := fun page hpage => by rw [hnone] at hpage; cases hpage
  obtain ⟨refs, hbegin⟩ := wrapfsWriteBegin_of_unlocked k a.stale hfree
  refine ⟨_, by simp only [sharedCall, hbegin, if_true]; rfl, fun scratch fresh => ?_⟩
  refine ⟨deliveredBytes (begunPage ino a.toChunk a.stale) ino.iSize a.index, ?_, ?_, ?_⟩
  · simp only [sharedCall, readCachePage, Inode.setPage_pages_self, if_true]
    rfl
  · rw [deliveredBytes, length_pageBytes]
  · intro i hi
    rw [deliveredBytes, length_pageBytes] at hi
    have hzero : 0 + i.val < pageCacheSize := by
      rw [Nat.zero_add]
      exact i.isLt
    rw [deliveredBytes, getElem?_pageBytes _ hi hzero, begunPage_of_none hnone hfits]
    simp only [Nat.zero_add]

/-- A byte of the file is about to be overwritten with itself; a reader gets what the memory of the
page held. -/
theorem read_before_copy_shows_page_byte :
    let a : WriteReq := ⟨⟨0, 1, [97]⟩, fun _ => 42, fun _ => 2⟩
    ∃ s, sharedCall (constCipher 7) zeroKey ⟨.fresh [102], none⟩ (.writeBegin a) = .ok ([], s) ∧
      ∃ b, sharedCall (constCipher 7) zeroKey s (.read 0 (fun _ => 3) fun _ => 4) = .ok ([b], s) ∧
        b = 42 := by
  intro a
  have hnone : (Inode.fresh [102]).pages a.index = none := rfl
  obtain ⟨s, hbegin, hread⟩ := read_before_copy_shows_page (constCipher 7) zeroKey hnone (by decide)
  obtain ⟨bytes, hcall, hlen, hbytes⟩ := hread (fun _ => 3) fun _ => 4
  have hindex : a.index = 0 := by decide
  have hone : bytes.length = 1 := by
    rw [hlen, hindex]
    decide
  obtain ⟨b, rfl⟩ := List.length_eq_one_iff.mp hone
  refine ⟨s, hbegin, b, hindex ▸ hcall, ?_⟩
  exact Option.some.inj (hbytes ⟨0, by decide⟩ Nat.one_pos)

end Wrapfs
