import Wrapfs.AddressSpace.Operations

/-!
# One chunk of a write

`generic_perform_write` cuts a write into chunks that each stay inside one page and drives
`write_begin`, the user copy and `write_end` for each.  `performWrite` is one turn of that loop;
`performWrite_eq` says what it leaves behind when a key is set and every call succeeds, and is the
only fact about the three functions that later modules use.

The three numbers to keep apart are the chunk's page start `ps`, its position `pos = ps + from`,
and its length `len`:

* the page receives the new bytes at `[from, from + len)`;
* the lower file receives the *first* `len` bytes of the encrypted page, at `ps`;
* `i_size` becomes the larger of the lower size and `pos + len`.

For a chunk on a page boundary `from` is 0 and the three say the same.  For any other they do not,
and most of what is said about writes in this development comes down to the difference.

## The page outside the chunk

`wrapfs_write_begin` reads nothing from the lower file.  A page that is not uptodate is zeroed
around the chunk, or not at all if the chunk covers it, and is then declared uptodate; so what a
partial write leaves in the rest of the page are zeros and not the file (`priorByte`).  For a
chunk that was copied in full this does not depend on what the page held before
(`storeBytes_preparedPage`).  For a short user copy it does, which is why `begunPage` and
`copiedPage` keep the stale contents.

## The tail

The zeroing of the page's tail runs between the two size updates, on the lower size alone.
`pageTail_zeroed_exactly` says that this is enough, and that it takes no byte below either size
with it.
-/

namespace Wrapfs

open CounterMode Ledger ByteStore

/-! ## The zeroing helper -/

/-- `fill_zeros_to_end_of_page` zeroes the bytes from `i_size` on and from in-page
offset `upTo` on, if `i_size` does not lie before the page. -/
theorem fillZerosToEndOfPage_apply (iSize index upTo : ℕ) (p : Page)
    (i : Fin pageCacheSize) :
    fillZerosToEndOfPage iSize index p upTo i =
      if pageStart index ≤ iSize ∧ iSize ≤ pageStart index + i.val ∧ upTo ≤ i.val then 0
      else p i := by
  have hi := i.isLt
  have hindex : iSize / pageCacheSize = index ↔
      pageStart index ≤ iSize ∧ iSize < pageStart index + pageCacheSize :=
    pageIndex_eq_iff iSize index
  unfold fillZerosToEndOfPage
  split
  · rename_i hne
    rw [if_neg]
    rintro ⟨hlo, hhi, -⟩
    exact hne (hindex.mpr ⟨hlo, by omega⟩)
  · rename_i heq
    have hsize : pageStart index + iSize % pageCacheSize = iSize := by
      rw [← not_not.mp heq]
      exact pageStart_add_pageOffset iSize
    rw [zeroUserSegment]
    refine if_congr ?_ rfl rfl
    split <;> omega

/-- `fill_zeros_to_end_of_page` leaves alone every byte below `i_size` and every
byte below in-page offset `upTo`. -/
theorem fillZerosToEndOfPage_of_lt {iSize index upTo : ℕ} (p : Page)
    {i : Fin pageCacheSize}
    (h : pageStart index + i.val < iSize ∨ i.val < upTo) :
    fillZerosToEndOfPage iSize index p upTo i = p i := by
  rw [fillZerosToEndOfPage_apply, if_neg]
  rintro ⟨-, hsize, hupTo⟩
  rcases h with h | h
  · exact absurd hsize (not_le.mpr h)
  · exact absurd hupTo (not_le.mpr h)

/-! ## The chunk -/

/-- One chunk of a write: where it starts, how many bytes `write_begin` is told
of, and the bytes the user copy delivered. -/
structure Chunk where
  pos : ℕ
  len : ℕ
  data : List Byte

/-- The page index of a chunk. -/
def Chunk.index (w : Chunk) : ℕ := pageIndex w.pos

/-- The answers the calls of one chunk get; `stale` is what a page newly
allocated for the cache holds. -/
structure ChunkCalls where
  stale : Option Page
  writeEnd : WriteEndCalls

/-- Every allocation, crypto call and lower write succeeds in full; the two pages
allocated hold `stale` and `scratch`. -/
def ChunkCalls.succeed (stale scratch : Page) : ChunkCalls :=
  ⟨some stale, ⟨some scratch, .succeed, .full⟩⟩

/-- One turn of `generic_perform_write`. -/
def performWrite (E : BlockCipher) (key : Option Key) (file : OpenFile)
    (c : ChunkCalls) (ino : Inode) (w : Chunk) : Except Fault (ℤ × Inode) :=
  match wrapfsWriteBegin key c.stale ino w.pos w.len with
  | .error fault => .error fault
  | .ok (status, ino₁) =>
      if status ≠ 0 then .ok (status, ino₁)
      else
        let ino₂ := copyFromUser ino₁ w.pos w.data
        match ino₂.pages w.index with
        | none => .error .badPointer
        | some page =>
            match wrapfsWriteEnd E key file c.writeEnd ino₂ w.pos w.data.length w.index
                page with
            | .error fault => .error fault
            | .ok r => .ok (r.ret, r.inode)

/-- A chunk that lies in one page and was copied in full. -/
structure Chunk.InPage (w : Chunk) : Prop where
  fits : pageOffset w.pos + w.len ≤ pageCacheSize
  full : w.data.length = w.len

/-- What the page of index `index` holds outside the bytes being written, once
`write_begin` has prepared it: its contents if it is cached and uptodate, zeros
otherwise. -/
def priorByte (ino : Inode) (index : ℕ) (i : Fin pageCacheSize) : Byte :=
  match ino.pages index with
  | none => 0
  | some page => if page.uptodate then page.data i else 0

/-- The contents of the chunk's page after the user copy. -/
def writtenPage (ino : Inode) (w : Chunk) : Page :=
  storeBytes (priorByte ino w.index) (pageOffset w.pos) w.data

/-- The lower file after the chunk: the head of the encrypted page, as long as
the chunk, at the start of the page. -/
def writtenLower (E : BlockCipher) (k : Key) (ino : Inode) (w : Chunk) : List Byte :=
  pwrite 0 ino.lower (pageStart w.index)
    (pageBytes (cipherPage E k (writtenPage ino w)) 0 w.len)

/-- The inode after a chunk whose calls all succeed. -/
def written (E : BlockCipher) (k : Key) (ino : Inode) (w : Chunk) (refs : ℕ) : Inode :=
  { ino with
    lower := writtenLower E k ino w
    iSize := max (writtenLower E k ino w).length (w.pos + w.len)
    dirty := w.index :: ino.dirty }.setPage w.index
      { data := fillZerosToEndOfPage (writtenLower E k ino w).length w.index
          (writtenPage ino w) (pageOffset w.pos + w.len)
        uptodate := true
        locked := false
        refs := refs }

@[simp] theorem written_lower (E : BlockCipher) (k : Key) (ino : Inode) (w : Chunk)
    (refs : ℕ) : (written E k ino w refs).lower = writtenLower E k ino w := rfl

@[simp] theorem written_iSize (E : BlockCipher) (k : Key) (ino : Inode) (w : Chunk)
    (refs : ℕ) : (written E k ino w refs).iSize =
      max (writtenLower E k ino w).length (w.pos + w.len) := rfl

/-- The page `p` as `wrapfs_write_begin` prepares it for the chunk. -/
def preparedPage (p : Page) (uptodate : Bool) (w : Chunk) : Page :=
  if uptodate = false ∧ w.len ≠ pageCacheSize then
    zeroUserSegments p 0 (pageOffset w.pos) (pageOffset w.pos + w.len) pageCacheSize
  else p

/-- The bytes `write_begin` leaves outside the chunk do not depend on what a page
that is not uptodate holds; when it zeroes nothing, the chunk covers the page. -/
theorem storeBytes_preparedPage {p : Page} {w : Chunk} (hw : w.InPage)
    (uptodate : Bool) :
    storeBytes (preparedPage p uptodate w) (pageOffset w.pos) w.data =
      storeBytes (fun i => if uptodate then p i else 0) (pageOffset w.pos) w.data := by
  obtain ⟨hfits, hfull⟩ := hw
  funext i
  have hi := i.isLt
  by_cases hmem : pageOffset w.pos ≤ i.val ∧ i.val < pageOffset w.pos + w.data.length
  · rw [storeBytes, storeBytes, if_pos hmem, if_pos hmem]
  · rw [storeBytes_of_not_mem _ hmem, storeBytes_of_not_mem _ hmem]
    cases uptodate with
    | true => simp [preparedPage]
    | false =>
        have hlen : w.len ≠ pageCacheSize := by omega
        rw [preparedPage, if_pos ⟨rfl, hlen⟩, zeroUserSegments, zeroUserSegment]
        by_cases hlow : i.val < pageOffset w.pos
        · rw [if_neg (by omega), zeroUserSegment, if_pos ⟨Nat.zero_le _, hlow⟩]
          rfl
        · rw [if_pos ⟨by omega, hi⟩]
          rfl

/-- The page lock is free. -/
def Unlocked (ino : Inode) (index : ℕ) : Prop :=
  ∀ page, ino.pages index = some page → page.locked = false

/-- The page as `wrapfs_write_begin` leaves it for the chunk; `stale` is what a page newly
allocated for the cache holds. -/
def begunPage (ino : Inode) (w : Chunk) (stale : Page) : Page :=
  match ino.pages w.index with
  | none => preparedPage stale false w
  | some page => preparedPage page.data page.uptodate w

/-- The page once the user's bytes are copied into it. -/
def copiedPage (ino : Inode) (w : Chunk) (stale : Page) : Page :=
  storeBytes (begunPage ino w stale) (pageOffset w.pos) w.data

/-- For a chunk copied in full it does not matter what a new page held. -/
theorem copiedPage_of_inPage {ino : Inode} {w : Chunk} (hw : w.InPage) (stale : Page) :
    copiedPage ino w stale = writtenPage ino w := by
  unfold copiedPage writtenPage begunPage
  cases hpage : ino.pages w.index with
  | none =>
      have hprior : priorByte ino w.index = fun i => if false then stale i else 0 := by
        funext i
        simp only [priorByte, hpage, Bool.false_eq_true, if_false]
      rw [hprior]
      exact storeBytes_preparedPage hw false
  | some page =>
      have hprior : priorByte ino w.index =
          fun i => if page.uptodate then page.data i else 0 := by
        funext i
        simp only [priorByte, hpage]
      rw [hprior]
      exact storeBytes_preparedPage hw page.uptodate

/-- `wrapfs_write_begin` leaves the page locked, uptodate and prepared. -/
theorem wrapfsWriteBegin_of_unlocked (k : Key) (stale : Page) {ino : Inode} {w : Chunk}
    (hfree : Unlocked ino w.index) :
    ∃ refs, wrapfsWriteBegin (some k) (some stale) ino w.pos w.len =
      .ok (0, ino.setPage w.index ⟨begunPage ino w stale, true, true, refs⟩) := by
  cases hpage : ino.pages w.index with
  | none =>
      have hpage' : ino.pages (pageIndex w.pos) = none := hpage
      refine ⟨1, ?_⟩
      simp only [wrapfsWriteBegin, grabCachePageWriteBegin, hpage', Option.map_some,
        begunPage, preparedPage, Chunk.index]
  | some page =>
      have hpage' : ino.pages (pageIndex w.pos) = some page := hpage
      refine ⟨page.refs + 1, ?_⟩
      simp only [wrapfsWriteBegin, grabCachePageWriteBegin, hpage', hfree page hpage,
        Bool.false_eq_true, if_false, begunPage, preparedPage, Chunk.index]

/-- The user copy goes into the page that `write_begin` has left. -/
theorem copyFromUser_setPage (ino : Inode) (w : Chunk) (page : CachePage) :
    copyFromUser (ino.setPage w.index page) w.pos w.data =
      ino.setPage w.index { page with data := storeBytes page.data (pageOffset w.pos) w.data } := by
  have hself : (ino.setPage w.index page).pages (pageIndex w.pos) = some page :=
    Inode.setPage_pages_self _ _ _
  unfold copyFromUser
  rw [hself]
  show (ino.setPage w.index _).setPage w.index _ = _
  rw [Inode.setPage_setPage]

/-- A chunk whose calls succeed comes to the store of `wrapfs_write_end`, whatever was cached and
however much of the chunk was copied. -/
theorem performWrite_eq_store (E : BlockCipher) (k : Key) (f : LowerFile) (b : Bool)
    (stale scratch : Page) {ino : Inode} {w : Chunk} (hfree : Unlocked ino w.index) :
    ∃ refs, performWrite E (some k) (.of f b) (.succeed stale scratch) ino w =
      .ok (w.data.length, writeEndStore .full f
        (ino.setPage w.index ⟨copiedPage ino w stale, true, true, refs⟩) w.pos w.data.length
        w.index ⟨copiedPage ino w stale, true, true, refs⟩
        (pageBytes (cipherPage E k (copiedPage ino w stale)) 0 w.data.length)) := by
  obtain ⟨refs, hbegin⟩ := wrapfsWriteBegin_of_unlocked k stale hfree
  refine ⟨refs, ?_⟩
  simp only [performWrite, ChunkCalls.succeed, hbegin, ne_eq, not_true, if_false,
    copyFromUser_setPage, Inode.setPage_pages_self, wrapfsWriteEnd, OpenFile.of,
    wrapfsEncryptPageNew_dst, copiedPage]

/-- With the lower write succeeding in full, the two size updates of
`wrapfs_write_end` amount to one maximum. -/
theorem writeEndStore_of_full (f : LowerFile) (ino : Inode) (pos copied index : ℕ)
    (page : CachePage) (buf : List Byte) :
    writeEndStore .full f ino pos copied index page buf =
      { ino with
        lower := (vfsWrite .full f ino.lower (pageStart index) buf).2
        iSize := max (vfsWrite .full f ino.lower (pageStart index) buf).2.length (pos + copied)
        dirty := index :: ino.dirty }.setPage index
          { page with
            data := fillZerosToEndOfPage
              (vfsWrite .full f ino.lower (pageStart index) buf).2.length index page.data
              (pageOffset pos + copied)
            locked := false
            refs := page.refs - 1 } := by
  have hrc : (if (buf.length : ℤ) > 0 then (0 : ℤ) else (buf.length : ℤ)) = 0 := by
    split <;> omega
  have hret : (vfsWrite .full f ino.lower (pageStart index) buf).1 = (buf.length : ℤ) := rfl
  simp only [writeEndStore, hret, hrc, if_true]
  congr 2
  rcases Nat.lt_or_ge (vfsWrite .full f ino.lower (pageStart index) buf).2.length (pos + copied)
    with h | h
  · rw [if_pos h, max_eq_right (le_of_lt h)]
  · rw [if_neg (not_lt.mpr h), max_eq_left h]

/-- **What one chunk does.**  With a key set, every call succeeding and the page's
lock free, the chunk reports all its bytes written and leaves `written`. -/
theorem performWrite_eq (E : BlockCipher) (k : Key) (stale scratch : Page)
    {ino : Inode} {w : Chunk} (hw : w.InPage) (hfree : Unlocked ino w.index) :
    ∃ refs, performWrite E (some k) .plain (.succeed stale scratch) ino w =
      .ok (w.len, written E k ino w refs) := by
  obtain ⟨refs, hstore⟩ := performWrite_eq_store E k ⟨false⟩ true stale scratch hfree
  refine ⟨refs - 1, ?_⟩
  rw [copiedPage_of_inPage hw, writeEndStore_of_full, hw.full] at hstore
  refine hstore.trans ?_
  rw [written, writtenLower]
  simp [Inode.setPage, vfsWrite]

/-! ## The tail of the page -/

/-- A lower write that returns the length of its buffer has stored the buffer. -/
theorem vfsWrite_of_ret_eq_length {t : Transfer} {f : LowerFile} {lower : List Byte} {pos : ℕ}
    {buf : List Byte} (h : (vfsWrite t f lower pos buf).1 = buf.length) :
    vfsWrite t f lower pos buf = vfsWrite .full f lower pos buf := by
  cases t with
  | full => rfl
  | short n =>
      have hlen : (buf.take n).length = buf.length := by
        have hret : ((buf.take n).length : ℤ) = buf.length := h
        omega
      have htake : buf.take n = buf := (List.take_sublist n buf).eq_of_length hlen
      simp only [vfsWrite, htake]
  | fail e =>
      have hret : e.ret = (buf.length : ℤ) := h
      have hneg := e.ret_neg
      omega

/-- After the store of a write inside one page that the lower file took whole, the page is zero
from the resulting `i_size` on: the lower file now reaches into the page, so the size copied from
it picks out this page, and the zeroing starts at the larger of the two sizes. -/
theorem writeEndStore_tail {write : Transfer} {ino : Inode} {pos copied : ℕ} {page : CachePage}
    {buf : List Byte} (hlen : buf.length = copied) (hcopied : 0 < copied)
    (hstored : (vfsWrite write ⟨false⟩ ino.lower (pageStart (pageIndex pos)) buf).1 = copied) :
    ∃ page', (writeEndStore write ⟨false⟩ ino pos copied (pageIndex pos) page buf).pages
        (pageIndex pos) = some page' ∧
      ∀ i : Fin pageCacheSize,
        (writeEndStore write ⟨false⟩ ino pos copied (pageIndex pos) page buf).iSize ≤
            pageStart (pageIndex pos) + i.val →
          page'.data i = 0 := by
  have hfull := vfsWrite_of_ret_eq_length (hstored.trans (congrArg Int.ofNat hlen.symm))
  have hstore : writeEndStore write ⟨false⟩ ino pos copied (pageIndex pos) page buf =
      writeEndStore .full ⟨false⟩ ino pos copied (pageIndex pos) page buf := by
    simp only [writeEndStore, hfull]
  have hne : buf ≠ [] := by
    rintro rfl
    rw [← hlen] at hcopied
    exact absurd hcopied (Nat.lt_irrefl 0)
  have hlower : (vfsWrite .full ⟨false⟩ ino.lower (pageStart (pageIndex pos)) buf).2.length =
      max ino.lower.length (pageStart (pageIndex pos) + copied) := by
    rw [← hlen]
    exact length_pwrite 0 _ _ hne
  rw [hstore, writeEndStore_of_full, hlower]
  refine ⟨_, Inode.setPage_pages_self _ _ _, fun i hi => ?_⟩
  have hsplit := pageStart_add_pageOffset pos
  dsimp only [Inode.setPage_iSize] at hi ⊢
  rw [fillZerosToEndOfPage_apply, if_pos]
  refine ⟨?_, ?_, ?_⟩ <;> omega

/-- **The tail of the page is zeroed exactly.**  `fill_zeros_to_end_of_page` changes no byte below
the larger of `i_size` and the end of the write.  And after every `wrapfs_write_end` of at least one
byte inside one page whose lower write took all of them, not `O_APPEND`, the page holds zeros from
the `i_size` it leaves on, whatever page and size it found. -/
theorem pageTail_zeroed_exactly :
    (∀ (iSize index upTo : ℕ) (p : Page) (i : Fin pageCacheSize), upTo ≤ pageCacheSize →
      pageStart index + i.val < max iSize (pageStart index + upTo) →
      fillZerosToEndOfPage iSize index p upTo i = p i) ∧
    ∀ (E : BlockCipher) (key : Option Key) (file : OpenFile) (c : WriteEndCalls) (ino : Inode)
      (pos copied : ℕ) (page : CachePage) (r : WriteEnd) (h : Handed),
      file.info = some (some ⟨false⟩) → 0 < copied → pageOffset pos + copied ≤ pageCacheSize →
      wrapfsWriteEnd E key file c ino pos copied (pageIndex pos) page = .ok r →
      r.handed = some h → (vfsWrite c.write ⟨false⟩ ino.lower h.offset h.bytes).1 = copied →
      ∃ page', r.inode.pages (pageIndex pos) = some page' ∧
        ∀ i : Fin pageCacheSize, r.inode.iSize ≤ pageStart (pageIndex pos) + i.val →
          page'.data i = 0 := by
  constructor
  · intro iSize index upTo p i _ hlt
    apply fillZerosToEndOfPage_of_lt
    rcases lt_max_iff.mp hlt with h | h
    · exact Or.inl h
    · exact Or.inr (Nat.lt_of_add_lt_add_left h)
  · intro E key file c ino pos copied page r h hinfo hcopied _ hend hhanded hstored
    cases key with
    | none =>
        simp only [wrapfsWriteEnd, hinfo, Except.ok.injEq] at hend
        subst hend
        cases hhanded
        exact writeEndStore_tail (length_pageBytes _ _ _) hcopied hstored
    | some k =>
        cases halloc : c.allocPage with
        | none =>
            -- the scratch page could not be allocated: nothing was handed to the lower file
            simp only [wrapfsWriteEnd, hinfo, halloc, Except.ok.injEq] at hend
            subst hend
            cases hhanded
        | some scratch =>
            simp only [wrapfsWriteEnd, hinfo, halloc, Except.ok.injEq] at hend
            subst hend
            cases hhanded
            exact writeEndStore_tail (length_pageBytes _ _ _) hcopied hstored

/-- `pageTail_zeroed_exactly` for one byte written at offset 5 of an empty file, in a page that
held other bytes. -/
theorem pageTail_zeroed_exactly_one_byte :
    ∃ page', (writeEndStore .full ⟨false⟩ emptyInode 5 1 0 ⟨fun _ => 7, true, true, 1⟩ [7]).pages 0
        = some page' ∧
      ∀ i : Fin pageCacheSize, 6 ≤ i.val → page'.data i = 0 := by
  obtain ⟨page', hpage, hzero⟩ := pageTail_zeroed_exactly.2 (constCipher 0) none .plain
    ⟨none, .succeed, .full⟩ emptyInode 5 1 ⟨fun _ => 7, true, true, 1⟩
    ⟨1, writeEndStore .full ⟨false⟩ emptyInode 5 1 0 ⟨fun _ => 7, true, true, 1⟩ [7],
      some ⟨0, [7]⟩, [.acquire .mapPage, .release .mapPage]⟩ ⟨0, [7]⟩
    rfl (by decide) (by decide) rfl rfl rfl
  refine ⟨page', hpage, fun i hi => hzero i ?_⟩
  show 6 ≤ 0 + i.val
  omega

end Wrapfs
