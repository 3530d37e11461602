import Wrapfs.AddressSpace.Write

/-!
# Agreement of the page cache with the lower file

`Agrees E k ino` is the invariant every result about stored data is about: the two sizes are
equal, and every uptodate cached page shows, below `i_size`, the lower bytes decrypted under `k`.
`AtRest` collects what holds whenever no operation is in progress and does not involve the data:
no page is locked, dirty pages are uptodate, the lower inode is attached.

For each operation there is one lemma saying what it does to the two:

* `agrees_written_iff`: a chunk of a write keeps the agreement *exactly when* it meets
  `StoresChange`, a condition on the chunk and the state before it;
* `vfsReadpage_eq` and `Agrees.readpage`: a read fills a page from the lower file and always keeps
  it;
* `Agrees.evict`: so does dropping a page.

## Why a write may break the agreement

`wrapfs_write_end` gives the lower file the first `len` bytes of the encrypted page, at the start
of the page, whatever the in-page offset of the chunk.  So a byte of the page at or past in-page
offset `len` is not stored by the call, and the agreement survives only if what the lower file
holds there already is what the page shows.

`StoresChange` says this with the two states apart: the sizes will agree, and every byte past
`len` that the chunk changes, or that `write_begin` has zeroed, has its value in the lower file
already. `storesChange_iff` is the same in one sentence, about the written page, and is what the
proof of `agrees_written_iff` goes through.

## What a read shows

`shownPage` is what a read of one page delivers, from the cache or from the lower file, as a
function of the state.  Past the end of the lower file it is the decryption of whatever the
scratch page held, so that nothing is said about those bytes; the generic read never copies them,
as they lie at or past `i_size` when the sizes agree.
-/

namespace Wrapfs

open CounterMode Ledger ByteStore

/-- The byte of the file at offset `off`: the lower byte, decrypted under `k`. -/
def fileByte (E : BlockCipher) (k : Key) (lower : List Byte) (off : ℕ) : Option Byte :=
  lower[off]?.map (cipherByte E k (pageOffset off))

/-- No operation is in progress. -/
structure AtRest (ino : Inode) : Prop where
  unlocked : ∀ index, Unlocked ino index
  dirty_uptodate : ∀ index ∈ ino.dirty, ∀ page, ino.pages index = some page →
    page.uptodate = true
  lowerInode : ino.lowerInode = true

/-- The sizes are equal, and every uptodate page agrees with the decrypted lower
file on its bytes below `i_size`. -/
structure Agrees (E : BlockCipher) (k : Key) (ino : Inode) : Prop where
  size : ino.iSize = ino.lower.length
  bytes : ∀ index page, ino.pages index = some page → page.uptodate = true →
    ∀ i : Fin pageCacheSize, pageStart index + i.val < ino.iSize →
      fileByte E k ino.lower (pageStart index + i.val) = some (page.data i)

/-! ## Writes -/

/-- The condition under which `wrapfs_write_end` stores all that a chunk changes. -/
structure StoresChange (E : BlockCipher) (k : Key) (ino : Inode) (w : Chunk) : Prop where
  /-- A chunk that lengthens the file starts on a page boundary. -/
  aligned : pageOffset w.pos = 0 ∨ w.pos + w.len ≤ ino.iSize
  /-- The bytes of the chunk that land at or past in-page offset `len` are
  already stored. -/
  chunk : ∀ j < w.len, w.len ≤ pageOffset w.pos + j →
    fileByte E k ino.lower (w.pos + j) = w.data[j]?
  /-- The page is cached and uptodate, or the file is zero on the rest of the page
  past in-page offset `len`. -/
  rest : (∃ page, ino.pages w.index = some page ∧ page.uptodate = true) ∨
    ∀ i : Fin pageCacheSize, w.len ≤ i.val →
      ¬ (pageOffset w.pos ≤ i.val ∧ i.val < pageOffset w.pos + w.len) →
      pageStart w.index + i.val < ino.iSize →
      fileByte E k ino.lower (pageStart w.index + i.val) = some 0

section Written

variable {E : BlockCipher} {k : Key} {ino : Inode} {w : Chunk}

/-- Page start and in-page offset. -/
theorem Chunk.pos_eq (w : Chunk) : pageStart w.index + pageOffset w.pos = w.pos :=
  pageStart_add_pageOffset w.pos

/-- The lower file grows to the end of what is stored, not to the end of the chunk. -/
theorem length_writtenLower (E : BlockCipher) (k : Key) (ino : Inode) (w : Chunk) :
    (writtenLower E k ino w).length =
      if w.len = 0 then ino.lower.length
      else max ino.lower.length (pageStart w.index + w.len) := by
  unfold writtenLower
  split
  · rename_i hlen
    rw [hlen]
    rfl
  · rename_i hlen
    rw [length_pwrite, length_pageBytes]
    intro hnil
    have := congrArg List.length hnil
    rw [length_pageBytes] at this
    exact hlen this

/-- Below in-page offset `len` the lower file now holds the written page. -/
theorem fileByte_writtenLower_of_lt (hsize : pageStart w.index ≤ ino.lower.length)
    {i : Fin pageCacheSize} (hi : i.val < w.len) :
    fileByte E k (writtenLower E k ino w) (pageStart w.index + i.val) =
      some (writtenPage ino w i) := by
  have hbuf : (pageBytes (cipherPage E k (writtenPage ino w)) 0 w.len)[i.val]? =
      some (cipherPage E k (writtenPage ino w) ⟨0 + i.val, by omega⟩) :=
    getElem?_pageBytes _ hi _
  have hi' : (⟨0 + i.val, by omega⟩ : Fin pageCacheSize) = i := Fin.ext (Nat.zero_add _)
  rw [fileByte, writtenLower, getElem?_pwrite_of_mem 0 hsize (by rwa [length_pageBytes]),
    hbuf, hi', Option.map_some, pageOffset_pageStart_add, cipherPage,
    cipherByte_cipherByte]

/-- Outside that window the lower file is what it was. -/
theorem fileByte_writtenLower_of_not_mem (hsize : pageStart w.index ≤ ino.lower.length)
    {off : ℕ} (hoff : ¬ (pageStart w.index ≤ off ∧ off < pageStart w.index + w.len)) :
    fileByte E k (writtenLower E k ino w) off = fileByte E k ino.lower off := by
  rw [fileByte, writtenLower, getElem?_pwrite_of_not_mem 0 hsize
    (by rwa [length_pageBytes]), fileByte]

/-- Below the new `i_size` the tail zeroing of `write_end` changes nothing. -/
theorem written_data_of_lt {i : Fin pageCacheSize}
    (hi : pageStart w.index + i.val < max (writtenLower E k ino w).length (w.pos + w.len)) :
    fillZerosToEndOfPage (writtenLower E k ino w).length w.index (writtenPage ino w)
      (pageOffset w.pos + w.len) i = writtenPage ino w i := by
  have hpos := w.pos_eq
  apply fillZerosToEndOfPage_of_lt
  rcases lt_max_iff.mp hi with h | h
  · exact Or.inl h
  · right
    omega

/-- Outside the chunk the page is as `write_begin` prepared it. -/
theorem writtenPage_of_not_mem {i : Fin pageCacheSize} (hfull : w.data.length = w.len)
    (hi : ¬ (pageOffset w.pos ≤ i.val ∧ i.val < pageOffset w.pos + w.len)) :
    writtenPage ino w i = priorByte ino w.index i := by
  rw [writtenPage, storeBytes_of_not_mem]
  rwa [hfull]

/-- `StoresChange` in one sentence: the two sizes will agree, and every byte of the
written page that the call does not store is stored already. -/
theorem storesChange_iff (hagree : Agrees E k ino) (hw : w.InPage) :
    StoresChange E k ino w ↔
      (pageOffset w.pos = 0 ∨ w.pos + w.len ≤ ino.iSize) ∧
      ∀ i : Fin pageCacheSize, w.len ≤ i.val → pageStart w.index + i.val < ino.iSize →
        fileByte E k ino.lower (pageStart w.index + i.val) =
          some (writtenPage ino w i) := by
  have hpos := w.pos_eq
  obtain ⟨hfits, hfull⟩ := hw
  constructor
  · rintro ⟨haligned, hchunk, hrest⟩
    refine ⟨haligned, fun i hi hlt => ?_⟩
    by_cases hmem : pageOffset w.pos ≤ i.val ∧ i.val < pageOffset w.pos + w.len
    · have hj := hchunk (i.val - pageOffset w.pos) (by omega) (by omega)
      have hoff : w.pos + (i.val - pageOffset w.pos) = pageStart w.index + i.val := by omega
      rw [hoff] at hj
      rw [hj, writtenPage]
      exact storeBytes_of_mem _ (by rwa [hfull])
    · rw [writtenPage_of_not_mem hfull hmem]
      rcases hrest with ⟨page, hpage, hup⟩ | hzero
      · rw [hagree.bytes w.index page hpage hup i hlt]
        simp only [priorByte, hpage, hup, if_true]
      · cases hpage : ino.pages w.index with
        | none => simp only [priorByte, hpage, hzero i hi hmem hlt]
        | some page =>
            cases hup : page.uptodate with
            | false =>
                simp only [priorByte, hpage, hup, Bool.false_eq_true, if_false,
                  hzero i hi hmem hlt]
            | true =>
                simp only [priorByte, hpage, hup, if_true,
                  hagree.bytes w.index page hpage hup i hlt]
  · rintro ⟨haligned, hstored⟩
    refine ⟨haligned, fun j hj hge => ?_, ?_⟩
    · have hlt : pageOffset w.pos + j < pageCacheSize := by omega
      have hbelow : pageStart w.index + (pageOffset w.pos + j) < ino.iSize := by omega
      have hstored' := hstored ⟨pageOffset w.pos + j, hlt⟩ hge hbelow
      have hmem : w.data[pageOffset w.pos + j - pageOffset w.pos]? =
          some (writtenPage ino w ⟨pageOffset w.pos + j, hlt⟩) := by
        refine storeBytes_of_mem (i := ⟨pageOffset w.pos + j, hlt⟩) _ ?_
        simp only [Nat.le_add_right, true_and]
        omega
      rw [Nat.add_sub_cancel_left] at hmem
      rw [← hpos, Nat.add_assoc, hstored', hmem]
    · by_cases hup : ∃ page, ino.pages w.index = some page ∧ page.uptodate = true
      · exact Or.inl hup
      · refine Or.inr fun i hi hmem hlt => ?_
        rw [hstored i hi hlt, writtenPage_of_not_mem hfull hmem]
        cases hpage : ino.pages w.index with
        | none => simp only [priorByte, hpage]
        | some page =>
            have hup' : ¬ page.uptodate = true := fun h => hup ⟨page, hpage, h⟩
            simp only [priorByte, hpage, if_neg hup']

/-- **A chunk keeps the agreement exactly when it stores what it changes.** -/
theorem agrees_written_iff (hagree : Agrees E k ino) (hw : w.InPage)
    (hpos : w.pos ≤ ino.iSize) (refs : ℕ) :
    Agrees E k (written E k ino w refs) ↔ StoresChange E k ino w := by
  rw [storesChange_iff hagree hw]
  have hpos' := w.pos_eq
  have hstart : pageStart w.index ≤ ino.lower.length := by
    rw [← hagree.size]
    omega
  have hlen := length_writtenLower E k ino w
  have hsize := hagree.size
  constructor
  · rintro ⟨hsize', hbytes⟩
    have hsize'' : max (writtenLower E k ino w).length (w.pos + w.len) =
        (writtenLower E k ino w).length := hsize'
    refine ⟨?_, fun i hi hlt => ?_⟩
    · rw [hlen] at hsize''
      split at hsize'' <;> omega
    · have hlt' : pageStart w.index + i.val <
          max (writtenLower E k ino w).length (w.pos + w.len) := by
        rw [hlen]
        split <;> omega
      have hb := hbytes w.index _ (Inode.setPage_pages_self _ _ _) rfl i hlt'
      have hout : ¬ (pageStart w.index ≤ pageStart w.index + i.val ∧
          pageStart w.index + i.val < pageStart w.index + w.len) := by omega
      rw [← fileByte_writtenLower_of_not_mem hstart hout, ← written_data_of_lt hlt']
      exact hb
  · rintro ⟨haligned, hstored⟩
    have hsize' : max (writtenLower E k ino w).length (w.pos + w.len) =
        (writtenLower E k ino w).length := by
      rw [hlen]
      split <;> omega
    refine ⟨hsize', fun index page hpage hup i hlt => ?_⟩
    have hlt' : pageStart index + i.val <
        max (writtenLower E k ino w).length (w.pos + w.len) := hlt
    by_cases hindex : index = w.index
    · subst hindex
      rw [written, Inode.setPage_pages_self] at hpage
      obtain rfl := Option.some.inj hpage
      show fileByte E k (writtenLower E k ino w) _ = some (fillZerosToEndOfPage _ _ _ _ i)
      rw [written_data_of_lt hlt']
      rcases Nat.lt_or_ge i.val w.len with hi | hi
      · exact fileByte_writtenLower_of_lt hstart hi
      · rw [fileByte_writtenLower_of_not_mem hstart (by omega)]
        refine hstored i hi ?_
        rw [hsize', hlen] at hlt'
        split at hlt' <;> omega
    · -- another page: its offsets lie outside the chunk's page altogether
      have hdisj := pageStart_disjoint hindex i
      have hfits := hw.fits
      have hout : ¬ (pageStart w.index ≤ pageStart index + i.val ∧
          pageStart index + i.val < pageStart w.index + w.len) := by omega
      rw [written, Inode.setPage_pages_of_ne _ _ hindex] at hpage
      show fileByte E k (writtenLower E k ino w) _ = _
      rw [fileByte_writtenLower_of_not_mem hstart hout]
      refine hagree.bytes index page hpage hup i ?_
      rw [hsize', hlen] at hlt'
      split at hlt' <;> omega

/-- Storing an unlocked page takes no lock. -/
theorem Unlocked.setPage {index j : ℕ} (hfree : Unlocked ino j) {p : CachePage}
    (hlocked : p.locked = false) : Unlocked (ino.setPage index p) j := by
  intro page hpage
  by_cases hj : j = index
  · subst hj
    rw [Inode.setPage_pages_self] at hpage
    obtain rfl := Option.some.inj hpage
    exact hlocked
  · rw [Inode.setPage_pages_of_ne _ _ hj] at hpage
    exact hfree page hpage

/-- A chunk leaves its page unlocked, and the locks of the others alone. -/
theorem Unlocked.written {index : ℕ} (hfree : Unlocked ino index) (refs : ℕ) :
    Unlocked (written E k ino w refs) index := by
  have hkept : Unlocked { ino with
      lower := writtenLower E k ino w
      iSize := max (writtenLower E k ino w).length (w.pos + w.len)
      dirty := w.index :: ino.dirty } index := hfree
  exact hkept.setPage rfl

/-- A chunk leaves the inode at rest. -/
theorem AtRest.written (hrest : AtRest ino) (refs : ℕ) :
    AtRest (written E k ino w refs) := by
  refine ⟨fun index => (hrest.unlocked index).written refs, fun index hmem page hpage => ?_,
    hrest.lowerInode⟩
  by_cases hindex : index = w.index
  · subst hindex
    rw [Wrapfs.written, Inode.setPage_pages_self] at hpage
    obtain rfl := Option.some.inj hpage
    rfl
  · rw [Wrapfs.written, Inode.setPage_pages_of_ne _ _ hindex] at hpage
    have hmem' : index ∈ ino.dirty := List.mem_of_ne_of_mem hindex hmem
    exact hrest.dirty_uptodate index hmem' page hpage

end Written

/-! ## Reads and evictions -/

/-- Every call of `wrapfs_readpage` succeeds in full. -/
def ReadpageCalls.succeed (scratch : Page) : ReadpageCalls := ⟨some scratch, .full, .succeed⟩

/-- What `wrapfs_readpage` puts into the page of index `index`: the decrypted
lower bytes, and past the end of the lower file the decryption of whatever the
scratch page held. -/
def readPageData (E : BlockCipher) (k : Key) (lower : List Byte) (index : ℕ)
    (scratch : Page) : Page :=
  cipherPage E k (storeBytes scratch 0 (pread lower (pageStart index) pageCacheSize))

/-- Below the end of the lower file the scratch page does not matter. -/
theorem fileByte_eq_readPageData (E : BlockCipher) (k : Key) {lower : List Byte}
    {index : ℕ} (scratch : Page) {i : Fin pageCacheSize}
    (hi : pageStart index + i.val < lower.length) :
    fileByte E k lower (pageStart index + i.val) =
      some (readPageData E k lower index scratch i) := by
  have hlen := length_pread lower (pageStart index) pageCacheSize
  have hi' := i.isLt
  have hmem : (pread lower (pageStart index) pageCacheSize)[i.val - 0]? =
      some (storeBytes scratch 0 (pread lower (pageStart index) pageCacheSize) i) :=
    storeBytes_of_mem scratch (by omega)
  rw [Nat.sub_zero, getElem?_pread, if_pos hi'] at hmem
  rw [fileByte, hmem, Option.map_some, pageOffset_pageStart_add, readPageData, cipherPage]

/-- The lock of the page can be taken. -/
theorem lockPage_of_unlocked {ino : Inode} {index : ℕ} (hfree : Unlocked ino index)
    (stale : Page) : ∃ page, lockPage ino index stale = .ok page := by
  unfold lockPage
  cases hpage : ino.pages index with
  | none => exact ⟨_, rfl⟩
  | some page =>
      refine ⟨{ page with locked := true }, ?_⟩
      simp only [hfree page hpage, Bool.false_eq_true, if_false]

/-- A successful `readpage` returns 0 and leaves the page uptodate, unlocked and
filled from the lower file. -/
theorem vfsReadpage_eq (E : BlockCipher) (k : Key) (scratch stale : Page) {fd : OpenFile}
    {f : LowerFile} (hfd : fd.info = some (some f)) {ino : Inode} {index : ℕ}
    (hfree : Unlocked ino index) :
    ∃ r refs, vfsReadpage E (some k) fd (.succeed scratch) stale ino index = .ok r ∧
      r.ret = 0 ∧
      r.inode = ino.setPage index
        ⟨readPageData E k ino.lower index scratch, true, false, refs⟩ := by
  obtain ⟨page, hpage⟩ := lockPage_of_unlocked hfree stale
  simp only [vfsReadpage, hpage, wrapfsReadpage, ReadpageCalls.succeed, hfd,
    vfsRead, wrapfsDecryptPageNew_ret, wrapfsDecryptPageNew_dst]
  exact ⟨_, page.refs, rfl, rfl, rfl⟩

section Kept

variable {E : BlockCipher} {k : Key} {ino : Inode} {index : ℕ}

/-- A page filled from the lower file agrees with it. -/
theorem Agrees.readpage (hagree : Agrees E k ino) (scratch : Page) (refs : ℕ) :
    Agrees E k (ino.setPage index
      ⟨readPageData E k ino.lower index scratch, true, false, refs⟩) := by
  refine ⟨hagree.size, fun j page hpage hup i hlt => ?_⟩
  by_cases hj : j = index
  · subst hj
    rw [Inode.setPage_pages_self] at hpage
    obtain rfl := Option.some.inj hpage
    refine fileByte_eq_readPageData E k scratch ?_
    show pageStart j + i.val < ino.lower.length
    rw [← hagree.size]
    exact hlt
  · rw [Inode.setPage_pages_of_ne _ _ hj] at hpage
    exact hagree.bytes j page hpage hup i hlt

theorem AtRest.setPage (hrest : AtRest ino) {p : CachePage} (hlocked : p.locked = false)
    (hup : p.uptodate = true) : AtRest (ino.setPage index p) := by
  refine ⟨fun j => (hrest.unlocked j).setPage hlocked, fun j hmem page hpage => ?_,
    hrest.lowerInode⟩
  by_cases hj : j = index
  · subst hj
    rw [Inode.setPage_pages_self] at hpage
    obtain rfl := Option.some.inj hpage
    exact hup
  · rw [Inode.setPage_pages_of_ne _ _ hj] at hpage
    exact hrest.dirty_uptodate j hmem page hpage

/-- What a read shows of the page of index `index`: the cached page if it is uptodate,
otherwise what `wrapfs_readpage` makes of the lower file. -/
def shownPage (E : BlockCipher) (k : Key) (ino : Inode) (index : ℕ) (scratch : Page) : Page :=
  match ino.pages index with
  | none => readPageData E k ino.lower index scratch
  | some page =>
      if page.uptodate then page.data else readPageData E k ino.lower index scratch

/-- **What a read does.**  With a key set, the page's lock free and every call
succeeding, it delivers `shownPage`, and leaves the inode alone or with that page
filled from the lower file. -/
theorem readCachePage_eq {fd : OpenFile} {f : LowerFile} (hfd : fd.info = some (some f))
    (hfree : Unlocked ino index) (scratch stale : Page) :
    ∃ ino',
      readCachePage E (some k) fd (.succeed scratch) stale ino index =
        .ok (.ok (shownPage E k ino index scratch), ino') ∧
      (ino' = ino ∨ ∃ refs, ino' = ino.setPage index
        ⟨readPageData E k ino.lower index scratch, true, false, refs⟩) := by
  obtain ⟨r, refs, hr, hret, hinode⟩ := vfsReadpage_eq E k scratch stale hfd hfree
  have hself : r.inode.pages index =
      some ⟨readPageData E k ino.lower index scratch, true, false, refs⟩ := by
    rw [hinode, Inode.setPage_pages_self]
  cases hpage : ino.pages index with
  | none =>
      refine ⟨r.inode, ?_, Or.inr ⟨refs, hinode⟩⟩
      simp only [readCachePage, shownPage, hpage, hr, hret, hself, ne_eq, not_true, if_false,
        if_true]
  | some page =>
      cases hup : page.uptodate with
      | true =>
          refine ⟨ino, ?_, Or.inl rfl⟩
          simp only [readCachePage, shownPage, hpage, hup, if_true]
      | false =>
          refine ⟨r.inode, ?_, Or.inr ⟨refs, hinode⟩⟩
          simp only [readCachePage, shownPage, hpage, hup, Bool.false_eq_true, hr, hret, hself,
            ne_eq, not_true, if_false, if_true]

/-- If cache and lower file agree, a read shows the file. -/
theorem fileByte_eq_shownPage (hagree : Agrees E k ino) (scratch : Page)
    {i : Fin pageCacheSize} (hi : pageStart index + i.val < ino.iSize) :
    fileByte E k ino.lower (pageStart index + i.val) =
      some (shownPage E k ino index scratch i) := by
  have hread : fileByte E k ino.lower (pageStart index + i.val) =
      some (readPageData E k ino.lower index scratch i) := by
    rw [hagree.size] at hi
    exact fileByte_eq_readPageData E k scratch hi
  cases hpage : ino.pages index with
  | none => simp only [shownPage, hpage, hread]
  | some page =>
      cases hup : page.uptodate with
      | true => simp only [shownPage, hpage, hup, if_true, hagree.bytes index page hpage hup i hi]
      | false => simp only [shownPage, hpage, hup, Bool.false_eq_true, if_false, hread]

/-- A read keeps the agreement, the file and the free locks. -/
theorem readCachePage_of_agrees {fd : OpenFile} {f : LowerFile}
    (hfd : fd.info = some (some f)) (hagree : Agrees E k ino)
    (hfree : Unlocked ino index) (scratch stale : Page) :
    ∃ ino',
      readCachePage E (some k) fd (.succeed scratch) stale ino index =
        .ok (.ok (shownPage E k ino index scratch), ino') ∧
      (∀ j, Unlocked ino j → Unlocked ino' j) ∧ Agrees E k ino' ∧
      ino'.lower = ino.lower ∧ ino'.iSize = ino.iSize := by
  obtain ⟨ino', hread, rfl | ⟨refs, rfl⟩⟩ :=
    readCachePage_eq (E := E) (k := k) hfd hfree scratch stale
  · exact ⟨ino', hread, fun _ h => h, hagree, rfl, rfl⟩
  · exact ⟨_, hread, fun j hj => hj.setPage rfl, hagree.readpage scratch refs, rfl, rfl⟩

/-- A page that is cached after an eviction was cached before it. -/
theorem evictPage_pages {j : ℕ} {page : CachePage}
    (h : (evictPage ino index).pages j = some page) : ino.pages j = some page := by
  unfold evictPage at h
  cases hpage : ino.pages index with
  | none => simpa only [hpage] using h
  | some p =>
      simp only [hpage] at h
      split at h
      · exact h
      · by_cases hj : j = index
        · simp [hj] at h
        · simpa only [Function.update_of_ne hj] using h

/-- An unlocked page is gone after its eviction. -/
theorem evictPage_pages_self (hfree : Unlocked ino index) :
    (evictPage ino index).pages index = none := by
  unfold evictPage
  cases hpage : ino.pages index with
  | none => exact hpage
  | some page =>
      simp only [hfree page hpage, Bool.false_eq_true, if_false]
      exact Function.update_self _ _ _

/-- An eviction does not touch the lower file, -/
theorem evictPage_lower (ino : Inode) (index : ℕ) :
    (evictPage ino index).lower = ino.lower := by
  unfold evictPage
  repeat' split
  all_goals rfl

/-- nor the size. -/
theorem evictPage_iSize (ino : Inode) (index : ℕ) :
    (evictPage ino index).iSize = ino.iSize := by
  unfold evictPage
  repeat' split
  all_goals rfl

theorem evictPage_lowerInode (ino : Inode) (index : ℕ) :
    (evictPage ino index).lowerInode = ino.lowerInode := by
  unfold evictPage
  repeat' split
  all_goals rfl

/-- No page becomes dirty. -/
theorem mem_evictPage_dirty {j : ℕ} (h : j ∈ (evictPage ino index).dirty) :
    j ∈ ino.dirty := by
  unfold evictPage at h
  repeat' split at h
  · exact h
  · exact h
  · exact List.mem_of_mem_filter h

theorem Agrees.evict (hagree : Agrees E k ino) : Agrees E k (evictPage ino index) := by
  refine ⟨?_, fun j page hpage hup i hlt => ?_⟩
  · rw [evictPage_iSize, evictPage_lower, hagree.size]
  · rw [evictPage_lower]
    rw [evictPage_iSize] at hlt
    exact hagree.bytes j page (evictPage_pages hpage) hup i hlt

theorem AtRest.evict (hrest : AtRest ino) : AtRest (evictPage ino index) := by
  refine ⟨fun j page hpage => ?_, fun j hmem page hpage => ?_, ?_⟩
  · exact hrest.unlocked j page (evictPage_pages hpage)
  · exact hrest.dirty_uptodate j (mem_evictPage_dirty hmem) page (evictPage_pages hpage)
  · rw [evictPage_lowerInode]
    exact hrest.lowerInode

end Kept

end Wrapfs
