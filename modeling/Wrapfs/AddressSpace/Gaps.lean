import Wrapfs.AddressSpace.FileIo
import Wrapfs.File.Setattr

/-!
# Gaps

A file grows past its end when its size is set (`wrapfs_setattr`) or when a write starts behind
it. Either way it has bytes then that nobody has written, and they should read as zeros.

The lower file system fills its own hole with zeros.  But what wrapfs shows is the lower bytes
*decrypted*: a page of a hole, read by `wrapfs_readpage`, comes out as the keystream.  So a gap
reads as zeros only where the keystream happens to be zero, or where `wrapfs_write_end` has stored
the encryption of a page that was zeroed before; and the first page of a write stores no more of
it than the write is long, from the start of the page.

## The result

`GapReadsZero` is the expectation: whatever pages are evicted and read again in between, a `read`
of a byte of the gap delivers a zero.  `gapReadsZero_iff` says when it is met.  That the answer is
exact needs the evictions: with the page of the last piece still cached, a byte may read as zero
now and as the keystream later.  `readsZero_iff` settles this once, for a byte of any file: the
byte reads as zero after all such events exactly when the lower file decrypts to zero there and
what is cached of it, if anything, is zero.

What is left is what a request makes of the bytes of the gap (`gapReadsZero_iff_of_grow`): for a
size change in `sizedInode`, for a write in the first of its pieces.  The later pieces of a write
are in later pages and only fill the rest of the hole (`genericPerformWrite_below`).

## How often it is met

Under a block cipher two counters never give the same block, so at most one of the first two
blocks of a page can be zero, and a hole that contains both never reads as zeros, whatever the key
(`not_gapReadsZero_of_two_blocks`).
-/

namespace Wrapfs

open CounterMode Ledger ByteStore Runs

/-! ## What a read shows -/

/-- The offset inside its page of the byte at `off`. -/
def inPage (off : ℕ) : Fin pageCacheSize := ⟨pageOffset off, pageOffset_lt off⟩

/-- One byte of a page. -/
theorem pageBytes_one (p : Page) (off : ℕ) : pageBytes p (pageOffset off) 1 = [p (inPage off)] := by
  simp [pageBytes, pageOffset_lt, inPage]

/-- What may happen to the page cache before a read: pages are evicted, and read. -/
inductive CacheEvent where
  | evict (index : ℕ)
  | read (index : ℕ) (scratch stale : Page)

/-- One such event, with key `k` set and every call succeeding. -/
def cacheStep (E : BlockCipher) (k : Key) (ino : Inode) : CacheEvent → Except Fault Inode
  | .evict index => .ok (evictPage ino index)
  | .read index scratch stale =>
      match readCachePage E (some k) .plain (.succeed scratch) stale ino index with
      | .error fault => .error fault
      | .ok (_, ino') => .ok ino'

/-- After any such events `read` delivers a zero for the byte at `off`. -/
def ReadsZero (E : BlockCipher) (k : Key) (ino : Inode) (off : ℕ) : Prop :=
  ∀ events : List CacheEvent, ∃ ino', run (cacheStep E k) ino events = .ok ino' ∧
    ∀ scratch stale : ℕ → Page, ∃ ino'',
      readFile E (some k) .plain (fun index => .succeed (scratch index)) stale ino' off 1 =
        .ok (1, [0], ino'')

/-- `ino` has the file of `ino₀`, and every page it caches was cached there or has been read
from the lower file. -/
structure CacheOf (E : BlockCipher) (k : Key) (ino₀ ino : Inode) : Prop where
  lower : ino.lower = ino₀.lower
  iSize : ino.iSize = ino₀.iSize
  unlocked : ∀ index, Unlocked ino index
  pages : ∀ index page, ino.pages index = some page → page.uptodate = true →
    (∃ page₀, ino₀.pages index = some page₀ ∧ page₀.uptodate = true ∧ page.data = page₀.data) ∨
      ∃ scratch, page.data = readPageData E k ino₀.lower index scratch

section Reads

variable {E : BlockCipher} {k : Key} {ino₀ ino : Inode}

/-- Nothing has happened yet. -/
theorem cacheOf_refl (hfree : ∀ index, Unlocked ino index) : CacheOf E k ino ino where
  lower := rfl
  iSize := rfl
  unlocked := hfree
  pages _ page hpage hup := Or.inl ⟨page, hpage, hup, rfl⟩

/-- An eviction or a read keeps it. -/
theorem CacheOf.step (h : CacheOf E k ino₀ ino) (a : CacheEvent) :
    ∃ ino', cacheStep E k ino a = .ok ino' ∧ CacheOf E k ino₀ ino' := by
  cases a with
  | evict index =>
      refine ⟨_, rfl, ?_, ?_, fun j page hpage => ?_, fun j page hpage => ?_⟩
      · rw [evictPage_lower, h.lower]
      · rw [evictPage_iSize, h.iSize]
      · exact h.unlocked j page (evictPage_pages hpage)
      · exact h.pages j page (evictPage_pages hpage)
  | read index scratch stale =>
      obtain ⟨ino', hread, hino⟩ := readCachePage_eq (E := E) (k := k) OpenFile.plain_info
        (h.unlocked index) scratch stale
      refine ⟨ino', by simp only [cacheStep, hread], ?_⟩
      rcases hino with rfl | ⟨refs, rfl⟩
      · exact h
      · refine ⟨h.lower, h.iSize, fun j => (h.unlocked j).setPage rfl, fun j page hpage hup => ?_⟩
        by_cases hj : j = index
        · subst hj
          rw [Inode.setPage_pages_self] at hpage
          obtain rfl := Option.some.inj hpage
          exact Or.inr ⟨scratch, by rw [h.lower]⟩
        · rw [Inode.setPage_pages_of_ne _ _ hj] at hpage
          exact h.pages j page hpage hup

/-- So do any number of them. -/
theorem CacheOf.run (h : CacheOf E k ino₀ ino) (events : List CacheEvent) :
    ∃ ino', Runs.run (cacheStep E k) ino events = .ok ino' ∧ CacheOf E k ino₀ ino' := by
  induction events generalizing ino with
  | nil => exact ⟨ino, rfl, h⟩
  | cons a events ih =>
      obtain ⟨ino₁, hstep, h₁⟩ := h.step a
      rw [run_cons_of_ok hstep]
      exact ih h₁

/-- `read` of one byte below `i_size`. -/
theorem readFile_one {off : ℕ} (hfree : Unlocked ino (pageIndex off)) (hoff : off < ino.iSize)
    (scratch stale : ℕ → Page) :
    ∃ ino', readFile E (some k) .plain (fun index => .succeed (scratch index)) stale ino off 1 =
      .ok (1, [shownPage E k ino (pageIndex off) (scratch (pageIndex off)) (inPage off)],
        ino') := by
  obtain ⟨ino', hread, hino⟩ := readCachePage_eq (E := E) (k := k) OpenFile.plain_info hfree
    (scratch (pageIndex off)) (stale (pageIndex off))
  have hsize : ino'.iSize = ino.iSize := by
    rcases hino with rfl | ⟨refs, rfl⟩ <;> rfl
  have hlt := pageOffset_lt off
  have hnr : min (pageCacheSize - pageOffset off) (ino'.iSize - off) ≠ 0 := by
    rw [hsize]
    omega
  have hn : min (min (pageCacheSize - pageOffset off) (ino'.iSize - off)) 1 = 1 := by omega
  refine ⟨ino', ?_⟩
  simp only [readFile, genericFileRead, hread, hnr, hn, pageBytes_one, one_ne_zero, if_false,
    List.nil_append, List.length_singleton, Nat.cast_one]

/-- What `wrapfs_readpage` makes of the byte at `off` is zero, whatever the scratch page held,
exactly when the lower file has the byte and it decrypts to zero. -/
theorem forall_readPageData_iff (lower : List Byte) (off : ℕ) :
    (∀ scratch, readPageData E k lower (pageIndex off) scratch (inPage off) = 0) ↔
      fileByte E k lower off = some 0 := by
  have hpos : pageStart (pageIndex off) + (inPage off).val = off := pageStart_add_pageOffset off
  rcases Nat.lt_or_ge off lower.length with hlt | hge
  · have hbyte : ∀ scratch, fileByte E k lower off =
        some (readPageData E k lower (pageIndex off) scratch (inPage off)) := fun scratch => by
      rw [← hpos] at hlt
      have h := fileByte_eq_readPageData E k scratch hlt
      rwa [hpos] at h
    refine ⟨fun h => by rw [hbyte fun _ => 0, h], fun h scratch => ?_⟩
    rw [hbyte scratch] at h
    exact Option.some.inj h
  · have hnone : fileByte E k lower off = none := by
      rw [fileByte, List.getElem?_eq_none hge, Option.map_none]
    -- the byte comes from the scratch page: two scratch pages give two bytes
    have hstale : ∀ scratch, readPageData E k lower (pageIndex off) scratch (inPage off) =
        cipherByte E k (inPage off).val (scratch (inPage off)) := fun scratch => by
      rw [readPageData, cipherPage, storeBytes_of_not_mem]
      rw [length_pread]
      omega
    rw [hnone]
    refine iff_of_false (fun h => ?_) fun h => ?_
    · have h0 := (hstale fun _ => 0).symm.trans (h _)
      have h1 := (hstale fun _ => 1).symm.trans (h _)
      have heq := congrArg (cipherByte E k (inPage off).val) (h0.trans h1.symm)
      rw [cipherByte_cipherByte, cipherByte_cipherByte] at heq
      exact absurd heq (by decide)
    · cases h

/-- What is cached of a byte is zero, or nothing is cached of it. -/
theorem priorByte_eq_zero_iff {index : ℕ} {i : Fin pageCacheSize} :
    priorByte ino index i = 0 ↔
      ∀ page, ino.pages index = some page → page.uptodate = true → page.data i = 0 := by
  unfold priorByte
  cases ino.pages index with
  | none => exact iff_of_true rfl fun _ h => by cases h
  | some page =>
      cases hup : page.uptodate with
      | false => simp [hup]
      | true => simp [hup]

/-- A byte that is zero in the lower file and in the cache is shown as zero later on. -/
theorem CacheOf.shownPage_eq_zero (h : CacheOf E k ino₀ ino) {off : ℕ}
    (hfile : fileByte E k ino₀.lower off = some 0)
    (hcached : priorByte ino₀ (pageIndex off) (inPage off) = 0) (scratch : Page) :
    shownPage E k ino (pageIndex off) scratch (inPage off) = 0 := by
  have hread := (forall_readPageData_iff ino₀.lower off).mpr hfile
  unfold shownPage
  rw [h.lower]
  cases hpage : ino.pages (pageIndex off) with
  | none => exact hread scratch
  | some page =>
      cases hup : page.uptodate with
      | false => simpa only [hup, Bool.false_eq_true, if_false] using hread scratch
      | true =>
          simp only [hup, if_true]
          rcases h.pages _ page hpage hup with ⟨page₀, hpage₀, hup₀, hdata⟩ | ⟨scratch', hdata⟩
          · rw [hdata]
            exact priorByte_eq_zero_iff.mp hcached page₀ hpage₀ hup₀
          · rw [hdata]
            exact hread scratch'

/-- **When a byte reads as zero** however often its page is evicted and read again: when the
lower file has it and it decrypts to zero, and what the cache has of it is zero. -/
theorem readsZero_iff (hfree : ∀ index, Unlocked ino index) {off : ℕ} (hoff : off < ino.iSize) :
    ReadsZero E k ino off ↔
      fileByte E k ino.lower off = some 0 ∧ priorByte ino (pageIndex off) (inPage off) = 0 := by
  constructor
  · intro h
    -- what is shown after the events, for any scratch page
    have hshown : ∀ events ino', Runs.run (cacheStep E k) ino events = .ok ino' →
        ∀ scratch, shownPage E k ino' (pageIndex off) scratch (inPage off) = 0 := by
      intro events ino' hrun scratch
      obtain ⟨ino₁, hrun₁, hread⟩ := h events
      obtain rfl : ino₁ = ino' := Except.ok.inj (hrun₁.symm.trans hrun)
      obtain ⟨ino₂, hrun₂, hcache⟩ := (cacheOf_refl (E := E) (k := k) hfree).run events
      obtain rfl : ino₂ = ino₁ := Except.ok.inj (hrun₂.symm.trans hrun₁)
      obtain ⟨ino₃, hzero⟩ := hread (fun _ => scratch) fun _ => scratch
      obtain ⟨ino₄, hone⟩ := readFile_one (E := E) (k := k)
        (hcache.unlocked (pageIndex off)) (hcache.iSize ▸ hoff) (fun _ => scratch) fun _ => scratch
      have hbytes := congrArg (fun r => r.2.1) (Except.ok.inj (hone.symm.trans hzero))
      exact List.head_eq_of_cons_eq hbytes
    constructor
    · refine (forall_readPageData_iff ino.lower off).mp fun scratch => ?_
      have hevicted := hshown [.evict (pageIndex off)] (evictPage ino (pageIndex off)) rfl scratch
      rwa [shownPage, evictPage_pages_self (hfree _), evictPage_lower] at hevicted
    · refine priorByte_eq_zero_iff.mpr fun page hpage hup => ?_
      have hcached := hshown [] ino rfl fun _ => 0
      simpa only [shownPage, hpage, hup, if_true] using hcached
  · rintro ⟨hfile, hcached⟩ events
    obtain ⟨ino', hrun, hcache⟩ := (cacheOf_refl (E := E) (k := k) hfree).run events
    refine ⟨ino', hrun, fun scratch stale => ?_⟩
    obtain ⟨ino'', hone⟩ := readFile_one (E := E) (k := k) (hcache.unlocked (pageIndex off))
      (hcache.iSize ▸ hoff) scratch stale
    refine ⟨ino'', ?_⟩
    rw [hone, hcache.shownPage_eq_zero hfile hcached]

end Reads

/-! ## Growing a file -/

/-- A request that makes a file longer: `wrapfs_setattr` with a size, or a write with the
pages that are allocated for its pieces, one for the cache and one for the ciphertext. -/
inductive Growth where
  | setattr (ia : Iattr)
  | write (pos : ℕ) (data : List Byte) (pages : List (Page × Page))

/-- Where the gap ends: at the new size, or at the first byte written. -/
def Growth.gapEnd : Growth → ℕ
  | .setattr ia => ia.size.getD 0
  | .write pos _ _ => pos

/-- The request makes a file of size `s` longer and leaves a gap. -/
def Growth.Grows (s : ℕ) : Growth → Prop
  | .setattr ia => s < ia.size.getD 0
  | .write pos data pages => s < pos ∧ data ≠ [] ∧ (writeChunks pos data).length ≤ pages.length

/-- The inode after the request, with every call succeeding.  Truncation takes the dirty
tags of the pages it drops. -/
def grow (E : BlockCipher) (k : Key) (ino : Inode) : Growth → Except Fault Inode
  | .setattr ia =>
      let r := wrapfsSetattr byteListFs none none ia ⟨ino.iSize, ino.pages⟩ ino.lower
      .ok { ino with
        lower := r.2.2
        iSize := r.2.1.iSize
        pages := r.2.1.pages
        dirty := ino.dirty.filter fun index => (r.2.1.pages index).isSome }
  | .write pos data pages =>
      match genericPerformWrite E (some k) .plain (pages.map fun p => .succeed p.1 p.2) ino 0
          (writeChunks pos data) with
      | .error fault => .error fault
      | .ok (_, ino') => .ok ino'

/-- The request returns, and every byte of the gap reads as zero. -/
def GapReadsZero (E : BlockCipher) (k : Key) (ino : Inode) (g : Growth) : Prop :=
  ∃ ino', grow E k ino g = .ok ino' ∧
    ∀ off, ino.iSize ≤ off → off < g.gapEnd → ReadsZero E k ino' off

/-- The bytes of its first page that a write gives to the lower file, counted from the start
of the page: as many as it writes into it. -/
def firstStored (pos : ℕ) (data : List Byte) : ℕ :=
  min (pageCacheSize - pageOffset pos) data.length

/-- What the lower file gets at `off`, in the gap, decrypts to zero: it is a zero of a hole
where the keystream is zero, or it is in the part of the first written page that is stored. -/
def Growth.StoresZero (E : BlockCipher) (k : Key) (off : ℕ) : Growth → Prop
  | .setattr _ => pageKeystream E k (pageOffset off) = 0
  | .write pos data _ =>
      if off < pageStart (pageIndex pos) then pageKeystream E k (pageOffset off) = 0
      else pageOffset off < firstStored pos data ∨
        -- the next piece makes a hole of the rest of the page
        firstStored pos data < data.length ∧ pageKeystream E k (pageOffset off) = 0

/-- What is left to show about a request: what it makes of the bytes of the gap. -/
theorem gapReadsZero_iff_of_grow {E : BlockCipher} {k : Key} {ino ino' : Inode} {g : Growth}
    (hgrow : grow E k ino g = .ok ino') (hfree : ∀ index, Unlocked ino' index)
    (hgap : ∀ off, ino.iSize ≤ off → off < g.gapEnd → off < ino'.iSize ∧
      (fileByte E k ino'.lower off = some 0 ∧ priorByte ino' (pageIndex off) (inPage off) = 0 ↔
        priorByte ino (pageIndex off) (inPage off) = 0 ∧ g.StoresZero E k off)) :
    GapReadsZero E k ino g ↔ ∀ off, ino.iSize ≤ off → off < g.gapEnd →
      priorByte ino (pageIndex off) (inPage off) = 0 ∧ g.StoresZero E k off := by
  constructor
  · rintro ⟨ino₁, hgrow₁, hzero⟩ off hlo hhi
    obtain rfl : ino₁ = ino' := Except.ok.inj (hgrow₁.symm.trans hgrow)
    obtain ⟨hoff, hiff⟩ := hgap off hlo hhi
    exact hiff.mp ((readsZero_iff hfree hoff).mp (hzero off hlo hhi))
  · intro h
    refine ⟨ino', hgrow, fun off hlo hhi => ?_⟩
    obtain ⟨hoff, hiff⟩ := hgap off hlo hhi
    exact (readsZero_iff hfree hoff).mpr (hiff.mpr (h off hlo hhi))

/-- A zero of a hole is shown as the keystream. -/
theorem fileByte_of_zero {E : BlockCipher} {k : Key} {lower : List Byte} {off : ℕ}
    (h : lower[off]? = some 0) :
    fileByte E k lower off = some (pageKeystream E k (pageOffset off)) := by
  rw [fileByte, h, Option.map_some, cipherByte]
  simp

section Setattr

variable {E : BlockCipher} {k : Key} {ino : Inode} {size : ℕ}

/-- The inode after its size is set. -/
def sizedInode (ino : Inode) (size : ℕ) : Inode :=
  { ino with
    lower := ino.lower.take size ++ List.replicate (size - ino.lower.length) 0
    iSize := size
    pages := (truncateSetsize ⟨ino.iSize, ino.pages⟩ size).pages
    dirty := ino.dirty.filter fun index =>
      ((truncateSetsize ⟨ino.iSize, ino.pages⟩ size).pages index).isSome }

/-- `wrapfs_setattr` with every call succeeding. -/
theorem grow_setattr {ia : Iattr} (hsize : ia.size = some size) :
    grow E k ino (.setattr ia) = .ok (sizedInode ino size) := by
  simp only [grow, wrapfsSetattr, hsize, byteListFs, lowerIattr_size]
  rfl

theorem unlocked_sizedInode (hfree : ∀ index, Unlocked ino index) (index : ℕ) :
    Unlocked (sizedInode ino size) index := by
  intro page hpage
  simp only [sizedInode, truncateSetsize] at hpage
  split at hpage
  · cases hpage
  · obtain ⟨page₀, hpage₀, rfl⟩ := Option.map_eq_some_iff.mp hpage
    exact hfree index page₀ hpage₀

/-- The lower file system fills its hole with zeros. -/
theorem sizedInode_lower {off : ℕ} (hlen : ino.lower.length ≤ off) (hoff : off < size) :
    (sizedInode ino size).lower[off]? = some 0 := by
  have htake : ino.lower.take size = ino.lower := List.take_of_length_le (by omega)
  show (ino.lower.take size ++ List.replicate (size - ino.lower.length) 0)[off]? = some 0
  rw [htake, List.getElem?_append_right hlen, List.getElem?_replicate, if_pos (by omega)]

/-- What is cached below the new size stays as it is. -/
theorem priorByte_sizedInode {off : ℕ} (hoff : off < size) :
    priorByte (sizedInode ino size) (pageIndex off) (inPage off) =
      priorByte ino (pageIndex off) (inPage off) := by
  have hpos : pageStart (pageIndex off) + (inPage off).val = off := pageStart_add_pageOffset off
  have hkeep : ¬ size ≤ pageStart (pageIndex off) := by omega
  unfold priorByte
  simp only [sizedInode, truncateSetsize, if_neg hkeep]
  cases ino.pages (pageIndex off) with
  | none => rfl
  | some page =>
      have hbyte : zeroUserSegment page.data (size - pageStart (pageIndex off)) pageCacheSize
          (inPage off) = page.data (inPage off) := by
        rw [zeroUserSegment, if_neg]
        omega
      simp only [Option.map_some, hbyte]

/-- **A gap made by `wrapfs_setattr`** is all hole. -/
theorem gapReadsZero_setattr_iff (hfree : ∀ index, Unlocked ino index)
    (hsize : ino.iSize = ino.lower.length) {ia : Iattr}
    (hgrows : Growth.Grows ino.iSize (.setattr ia)) :
    GapReadsZero E k ino (.setattr ia) ↔
      ∀ off, ino.iSize ≤ off → off < Growth.gapEnd (.setattr ia) →
        priorByte ino (pageIndex off) (inPage off) = 0 ∧
          Growth.StoresZero E k off (.setattr ia) := by
  cases hia : ia.size with
  | none =>
      rw [Growth.Grows, hia] at hgrows
      exact absurd hgrows (Nat.not_lt_zero _)
  | some size =>
      refine gapReadsZero_iff_of_grow (grow_setattr hia) (unlocked_sizedInode hfree)
        fun off hlo hhi => ?_
      have hoff : off < size := by
        rwa [Growth.gapEnd, hia] at hhi
      refine ⟨hoff, ?_⟩
      rw [hsize] at hlo
      rw [fileByte_of_zero (sizedInode_lower hlo hoff), priorByte_sizedInode hoff,
        Option.some.injEq, Growth.StoresZero, and_comm]

/-- Two blocks of a block cipher are never both zero, so a hole that has the first two blocks
of a page does not read as zeros under any key. -/
theorem not_gapReadsZero_of_two_blocks (hE : Function.Injective (E k))
    (hfree : ∀ index, Unlocked ino index) (hsize : ino.iSize = ino.lower.length) {ia : Iattr}
    {index : ℕ} (hstart : ino.iSize ≤ pageStart index)
    (hend : pageStart index + 2 * blockSize ≤ ia.size.getD 0) :
    ¬ GapReadsZero E k ino (.setattr ia) := by
  intro hzero
  obtain ⟨x, hx⟩ := keystream_block_ne hE 0 (i := 0) (j := 1) (by decide) (by decide)
    Nat.zero_ne_one
  have hlt : x.val < blockSize := x.isLt
  have hgrows : Growth.Grows ino.iSize (.setattr ia) := by
    show ino.iSize < ia.size.getD 0
    omega
  -- the two blocks, byte by byte
  have hbyte : ∀ j < 2 * blockSize, pageKeystream E k j = 0 := by
    intro j hj
    have hin : j < pageCacheSize := hj.trans (by decide)
    have hoff := ((gapReadsZero_setattr_iff hfree hsize hgrows).mp hzero (pageStart index + j)
      (by omega) (lt_of_lt_of_le (Nat.add_lt_add_left hj _) hend)).2
    rwa [Growth.StoresZero, pageOffset_pageStart_add index ⟨j, hin⟩] at hoff
  refine hx ((hbyte _ ?_).trans (hbyte _ ?_).symm)
  · omega
  · omega

end Setattr

/-! ## Writes -/

section Pieces

variable {pos : ℕ} {data : List Byte}

/-- A write of something stores something. -/
theorem firstStored_pos (pos : ℕ) (hne : data ≠ []) : 0 < firstStored pos data := by
  have hoff := pageOffset_lt pos
  have hlen := List.length_pos_iff.mpr hne
  unfold firstStored
  omega

variable (pos data) in
/-- The first piece of a write. -/
def firstPiece : Chunk := ⟨pos, firstStored pos data, data.take (firstStored pos data)⟩

variable (pos data) in
/-- The pieces after the first. -/
def laterPieces : List Chunk :=
  chunksFrom (data.length - 1) (pos + firstStored pos data) (data.drop (firstStored pos data))

/-- A first piece and the later ones. -/
theorem writeChunks_cons (pos : ℕ) (hne : data ≠ []) :
    writeChunks pos data = firstPiece pos data :: laterPieces pos data := by
  cases data with
  | nil => exact absurd rfl hne
  | cons b rest => rfl

theorem chunksFrom_eq_nil_iff {fuel : ℕ} (hfuel : data.length ≤ fuel) :
    chunksFrom fuel pos data = [] ↔ data = [] := by
  cases fuel with
  | zero => exact iff_of_true rfl (List.length_eq_zero_iff.mp (Nat.le_zero.mp hfuel))
  | succ fuel =>
      cases data with
      | nil => exact iff_of_true rfl rfl
      | cons b rest => simp [chunksFrom]

/-- Pieces come in order. -/
theorem pos_le_of_mem_chunksFrom {fuel : ℕ} {w : Chunk} (hw : w ∈ chunksFrom fuel pos data) :
    pos ≤ w.pos := by
  induction fuel generalizing pos data with
  | zero => cases hw
  | succ fuel ih =>
      unfold chunksFrom at hw
      split at hw
      · cases hw
      · rcases List.mem_cons.mp hw with rfl | hw
        · exact le_rfl
        · exact (Nat.le_add_right _ _).trans (ih hw)

/-- There are later pieces when the first does not take all the data. -/
theorem laterPieces_eq_nil_iff (hne : data ≠ []) :
    laterPieces pos data = [] ↔ ¬ firstStored pos data < data.length := by
  have hfirst := firstStored_pos pos hne
  rw [laterPieces, chunksFrom_eq_nil_iff, List.drop_eq_nil_iff, not_lt]
  rw [List.length_drop]
  omega

/-- They are in later pages. -/
theorem lt_pageStart_of_mem_laterPieces (hne : data ≠ []) {w : Chunk}
    (hw : w ∈ laterPieces pos data) {off : ℕ} (hoff : off < pos) : off < pageStart w.index := by
  have hpos := pageStart_add_pageOffset pos
  have hlt := pageOffset_lt pos
  have hmore : firstStored pos data < data.length := by
    by_contra hge
    rw [(laterPieces_eq_nil_iff hne).mpr hge] at hw
    cases hw
  have hfull : firstStored pos data = pageCacheSize - pageOffset pos := by
    unfold firstStored at hmore ⊢
    omega
  have hle := pos_le_of_mem_chunksFrom hw
  have hindex : pageIndex pos + 1 ≤ w.index := by
    refine (Nat.le_div_iff_mul_le pageCacheSize_pos).mpr ?_
    rw [Nat.add_mul, Nat.one_mul]
    show pageStart (pageIndex pos) + pageCacheSize ≤ w.pos
    omega
  have hmono : pageStart (pageIndex pos + 1) ≤ pageStart w.index :=
    Nat.mul_le_mul_right pageCacheSize hindex
  have hnext : pageStart (pageIndex pos + 1) = pageStart (pageIndex pos) + pageCacheSize := by
    unfold pageStart
    rw [Nat.add_mul, Nat.one_mul]
  omega

end Pieces

section Write

variable {E : BlockCipher} {k : Key} {ino : Inode} {w : Chunk}

/-- Below its page a piece leaves the lower file alone, but for filling it. -/
theorem writtenLower_below (hlen : 0 < w.len) {off : ℕ} (hoff : off < pageStart w.index) :
    (writtenLower E k ino w)[off]? = some (ino.lower[off]?.getD 0) := by
  refine getElem?_pwrite_of_lt 0 ino.lower ?_ hoff
  exact List.ne_nil_of_length_pos (by rwa [length_pageBytes])

/-- **Pieces in later pages.**  With every call succeeding they are all written, and what is
before them stays as it is, but for the hole that the first of them may make. -/
theorem genericPerformWrite_below {ws : List Chunk} (hws : ∀ w ∈ ws, w.InPage ∧ 0 < w.len) :
    ∀ {ino : Inode} {pages : List (Page × Page)} (done : ℕ), (∀ index, Unlocked ino index) →
      ws.length ≤ pages.length →
      ∃ ret ino', genericPerformWrite E (some k) .plain
          (pages.map fun p => .succeed p.1 p.2) ino done ws = .ok (ret, ino') ∧
        (∀ index, Unlocked ino' index) ∧
        ∀ off, (∀ w ∈ ws, off < pageStart w.index) → off < ino.iSize →
          off < ino'.iSize ∧ ino'.pages (pageIndex off) = ino.pages (pageIndex off) ∧
          ino'.lower[off]? =
            if ws = [] then ino.lower[off]? else some (ino.lower[off]?.getD 0) := by
  induction ws with
  | nil =>
      intro ino pages done hfree _
      exact ⟨done, ino, by simp only [genericPerformWrite], hfree,
        fun off _ hoff => ⟨hoff, rfl, by rw [if_pos rfl]⟩⟩
  | cons w ws ih =>
      intro ino pages done hfree hpages
      obtain ⟨hin, hlen⟩ := hws w List.mem_cons_self
      cases pages with
      | nil => exact absurd hpages (Nat.not_succ_le_zero _)
      | cons p pages =>
          obtain ⟨refs, hwrite⟩ := performWrite_eq E k p.1 p.2 hin (hfree w.index)
          obtain ⟨ret, ino', hloop, hfree', hbelow⟩ :=
            ih (fun v hv => hws v (List.mem_cons_of_mem _ hv)) (done + w.len)
              (fun index => (hfree index).written (w := w) (k := k) (E := E) refs)
              (Nat.le_of_succ_le_succ hpages)
          refine ⟨ret, ino', ?_, hfree', fun off hoff _ => ?_⟩
          · have hneg : ¬ (w.len : ℤ) < 0 := by omega
            have hzero : ¬ (w.len : ℤ) = 0 := by omega
            simp only [List.map_cons, genericPerformWrite, hwrite, hneg, hzero, if_false,
              Int.toNat_natCast, hloop]
          · have hstart := hoff w List.mem_cons_self
            have hpos := w.pos_eq
            have hsize : off < (written E k ino w refs).iSize := by
              rw [written_iSize]
              exact lt_max_of_lt_right (by omega)
            obtain ⟨hsize', hpage, hlower⟩ :=
              hbelow off (fun v hv => hoff v (List.mem_cons_of_mem _ hv)) hsize
            refine ⟨hsize', ?_, ?_⟩
            · rw [hpage]
              refine Inode.setPage_pages_of_ne _ _ ?_
              intro heq
              have hself := pageStart_add_pageOffset off
              rw [heq] at hself
              omega
            · rw [hlower, written_lower, writtenLower_below hlen hstart, if_neg (List.cons_ne_nil _ _)]
              split <;> rfl

/-- Of the page of a piece, before the piece. -/
theorem pageIndex_eq_of_lt_pos {off : ℕ} (hstart : pageStart w.index ≤ off) (hoff : off < w.pos) :
    pageIndex off = w.index := by
  have hpos := w.pos_eq
  have hlt := pageOffset_lt w.pos
  exact (pageIndex_eq_iff off w.index).mpr ⟨hstart, by omega⟩

/-- Before the piece the page is as `write_begin` prepared it. -/
theorem writtenPage_before (hw : w.InPage) {off : ℕ} (hstart : pageStart w.index ≤ off)
    (hoff : off < w.pos) :
    writtenPage ino w (inPage off) = priorByte ino (pageIndex off) (inPage off) := by
  have hpos := w.pos_eq
  have hself := pageStart_add_pageOffset off
  rw [pageIndex_eq_of_lt_pos hstart hoff] at hself ⊢
  refine writtenPage_of_not_mem hw.full ?_
  show ¬ (pageOffset w.pos ≤ pageOffset off ∧ pageOffset off < pageOffset w.pos + w.len)
  omega

/-- What the lower file has of the gap after the first piece: zeros before the page of the
piece, then as much of the encrypted page as the piece is long. -/
theorem writtenLower_gap (hw : w.InPage) (hlen : 0 < w.len) {off : ℕ}
    (hend : ino.lower.length ≤ off) (hoff : off < w.pos) :
    (writtenLower E k ino w)[off]? =
      if off < pageStart w.index then some 0
      else if pageOffset off < w.len then
        some (cipherByte E k (pageOffset off) (priorByte ino (pageIndex off) (inPage off)))
      else none := by
  by_cases hbelow : off < pageStart w.index
  · rw [if_pos hbelow, writtenLower_below hlen hbelow, List.getElem?_eq_none hend]
    rfl
  · have hstart := not_lt.mp hbelow
    have hself := pageStart_add_pageOffset off
    rw [pageIndex_eq_of_lt_pos hstart hoff] at hself
    rw [if_neg hbelow]
    by_cases hstored : pageOffset off < w.len
    · rw [if_pos hstored, ← writtenPage_before hw hstart hoff]
      have hbuf : (pageBytes (cipherPage E k (writtenPage ino w)) 0 w.len)[pageOffset off]? =
          some (cipherPage E k (writtenPage ino w) (inPage off)) := by
        have hin : 0 + pageOffset off < pageCacheSize := by
          rw [Nat.zero_add]
          exact pageOffset_lt off
        rw [getElem?_pageBytes _ hstored hin]
        congr 2
        exact Fin.ext (Nat.zero_add _)
      have hwindow : (writtenLower E k ino w)[pageStart w.index + pageOffset off]? =
          (pageBytes (cipherPage E k (writtenPage ino w)) 0 w.len)[pageOffset off]? :=
        getElem?_pwrite_window 0 ino.lower (by rwa [length_pageBytes])
      rw [hself, hbuf] at hwindow
      exact hwindow
    · rw [if_neg hstored, List.getElem?_eq_none]
      rw [length_writtenLower, if_neg (Nat.ne_of_gt hlen)]
      omega

/-- What is cached before the piece stays as it is. -/
theorem priorByte_written (hw : w.InPage) {off : ℕ} (hoff : off < w.pos) (refs : ℕ) :
    priorByte (written E k ino w refs) (pageIndex off) (inPage off) =
      priorByte ino (pageIndex off) (inPage off) := by
  by_cases hindex : pageIndex off = w.index
  · have hself : pageStart (pageIndex off) + (inPage off).val = off := pageStart_add_pageOffset off
    have hstart : pageStart w.index ≤ off := by
      rw [← hindex]
      omega
    have hbefore : writtenPage ino w (inPage off) = priorByte ino (pageIndex off) (inPage off) :=
      writtenPage_before hw hstart hoff
    rw [← hbefore, hindex, priorByte, written, Inode.setPage_pages_self]
    refine written_data_of_lt (lt_max_of_lt_right ?_)
    rw [hindex] at hself
    omega
  · have hpage : (written E k ino w refs).pages (pageIndex off) = ino.pages (pageIndex off) :=
      Inode.setPage_pages_of_ne _ _ hindex
    rw [priorByte, hpage, priorByte]

/-- The whole write: what follows the first piece only fills the rest of its page. -/
theorem grow_write {pos : ℕ} {data : List Byte} (hne : data ≠ []) {pages : List (Page × Page)}
    (hpages : (writeChunks pos data).length ≤ pages.length)
    (hfree : ∀ index, Unlocked ino index) :
    ∃ ino', grow E k ino (.write pos data pages) = .ok ino' ∧ (∀ index, Unlocked ino' index) ∧
      ∀ off, ino.lower.length ≤ off → off < pos → off < ino'.iSize ∧
        priorByte ino' (pageIndex off) (inPage off) =
          priorByte ino (pageIndex off) (inPage off) ∧
        ino'.lower[off]? =
          if off < pageStart (pageIndex pos) then some 0
          else if pageOffset off < firstStored pos data then
            some (cipherByte E k (pageOffset off) (priorByte ino (pageIndex off) (inPage off)))
          else if firstStored pos data < data.length then some 0
          else none := by
  have hcons := writeChunks_cons pos hne
  have hin : ∀ w ∈ firstPiece pos data :: laterPieces pos data, w.InPage ∧ 0 < w.len := by
    rw [← hcons]
    exact chunksFrom_inPage
  rw [hcons] at hpages
  obtain ⟨hw, hlen⟩ := hin _ List.mem_cons_self
  cases pages with
  | nil => exact absurd hpages (Nat.not_succ_le_zero _)
  | cons p pages =>
      obtain ⟨refs, hwrite⟩ := performWrite_eq E k p.1 p.2 hw (hfree _)
      obtain ⟨ret, ino', hloop, hfree', hbelow⟩ := genericPerformWrite_below (E := E) (k := k)
        (fun w hmem => hin w (List.mem_cons_of_mem _ hmem)) (0 + (firstPiece pos data).len)
        (fun index => (hfree index).written (w := firstPiece pos data) (k := k) (E := E) refs)
        (Nat.le_of_succ_le_succ hpages)
      refine ⟨ino', ?_, hfree', fun off hend hoff => ?_⟩
      · have hneg : ¬ ((firstPiece pos data).len : ℤ) < 0 := by omega
        have hzero : ¬ ((firstPiece pos data).len : ℤ) = 0 := by omega
        simp only [grow, hcons, List.map_cons, genericPerformWrite, hwrite, hneg, hzero, if_false,
          Int.toNat_natCast, hloop]
      · have hsize : off < (written E k ino (firstPiece pos data) refs).iSize :=
          lt_max_of_lt_right (Nat.lt_add_right _ hoff)
        obtain ⟨hsize', hpage, hlower⟩ := hbelow off
          (fun w hmem => lt_pageStart_of_mem_laterPieces hne hmem hoff) hsize
        refine ⟨hsize', ?_, ?_⟩
        · have hprior : priorByte (written E k ino (firstPiece pos data) refs) (pageIndex off)
              (inPage off) = priorByte ino (pageIndex off) (inPage off) :=
            priorByte_written hw hoff refs
          rw [← hprior, priorByte, hpage, priorByte]
        · rw [hlower, written_lower, writtenLower_gap hw hlen hend hoff]
          simp only [laterPieces_eq_nil_iff hne]
          show _ = if off < pageStart (firstPiece pos data).index then some 0
            else if pageOffset off < (firstPiece pos data).len then _ else _
          by_cases hstart : off < pageStart (firstPiece pos data).index
          · simp only [if_pos hstart, Option.getD_some, ite_self]
          · by_cases hstored : pageOffset off < (firstPiece pos data).len
            · simp only [if_neg hstart, if_pos hstored, Option.getD_some, ite_self]
            · simp only [if_neg hstart, if_neg hstored, Option.getD_none, ite_not]

/-- **A gap made by a write** is hole up to the first page of the write. -/
theorem gapReadsZero_write_iff (hfree : ∀ index, Unlocked ino index)
    (hsize : ino.iSize = ino.lower.length) {pos : ℕ} {data : List Byte}
    {pages : List (Page × Page)} (hgrows : Growth.Grows ino.iSize (.write pos data pages)) :
    GapReadsZero E k ino (.write pos data pages) ↔
      ∀ off, ino.iSize ≤ off → off < Growth.gapEnd (.write pos data pages) →
        priorByte ino (pageIndex off) (inPage off) = 0 ∧
          Growth.StoresZero E k off (.write pos data pages) := by
  obtain ⟨-, hne, hpages⟩ := hgrows
  obtain ⟨ino', hgrow, hfree', hgap⟩ := grow_write (E := E) (k := k) hne hpages hfree
  refine gapReadsZero_iff_of_grow hgrow hfree' fun off hlo hhi => ?_
  rw [hsize] at hlo
  obtain ⟨hoff, hprior, hlower⟩ := hgap off hlo hhi
  refine ⟨hoff, ?_⟩
  rw [hprior, and_comm]
  refine and_congr_right fun hzero => ?_
  rw [hzero] at hlower
  simp only [Growth.StoresZero]
  by_cases hstart : off < pageStart (pageIndex pos)
  · rw [if_pos hstart] at hlower ⊢
    rw [fileByte_of_zero hlower, Option.some.injEq]
  · rw [if_neg hstart] at hlower ⊢
    by_cases hstored : pageOffset off < firstStored pos data
    · -- the zeroed part of the page, encrypted
      rw [if_pos hstored] at hlower
      rw [fileByte, hlower, Option.map_some, cipherByte_cipherByte]
      exact iff_of_true rfl (Or.inl hstored)
    · rw [if_neg hstored] at hlower
      rw [or_iff_right hstored]
      by_cases hmore : firstStored pos data < data.length
      · rw [if_pos hmore] at hlower
        rw [fileByte_of_zero hlower, Option.some.injEq, and_iff_right hmore]
      · rw [if_neg hmore] at hlower
        rw [fileByte, hlower]
        refine iff_of_false (fun h => ?_) fun h => hmore h.1
        cases h

end Write

/-- **When a gap reads as zeros.**  On a file whose two sizes agree and whose pages are
unlocked, and with the key set, the bytes between the old end and the new size, or the first
byte written behind it, read as zeros after any evictions and reads, if and only if for each
of them

* the cache has a zero or nothing; and
* what the lower file gets decrypts to zero: the byte is in the part of the first written
  page that the write stores, or it is in a hole and the keystream is zero there. -/
theorem gapReadsZero_iff (E : BlockCipher) (k : Key) {ino : Inode}
    (hfree : ∀ index, Unlocked ino index) (hsize : ino.iSize = ino.lower.length) {g : Growth}
    (hgrows : g.Grows ino.iSize) :
    GapReadsZero E k ino g ↔ ∀ off, ino.iSize ≤ off → off < g.gapEnd →
      priorByte ino (pageIndex off) (inPage off) = 0 ∧ g.StoresZero E k off := by
  cases g with
  | setattr ia => exact gapReadsZero_setattr_iff hfree hsize hgrows
  | write pos data pages => exact gapReadsZero_write_iff hfree hsize hgrows

/-- `gapReadsZero_iff` for a byte written at offset 1 of an empty file: the page is zeroed and
the zero before the byte is stored. -/
theorem gapReadsZero_iff_second_byte :
    GapReadsZero (constCipher 5) zeroKey emptyInode
      (.write 1 [97] [(fun _ => 0, fun _ => 0)]) := by
  have hgrows : Growth.Grows emptyInode.iSize (.write 1 [97] [(fun _ => 0, fun _ => 0)]) :=
    ⟨by decide, List.cons_ne_nil _ _, le_rfl⟩
  refine (gapReadsZero_iff (constCipher 5) zeroKey atRest_emptyInode.unlocked rfl hgrows).mpr ?_
  intro off _ hoff
  obtain rfl : off = 0 := Nat.lt_one_iff.mp hoff
  exact ⟨rfl, Or.inl (by decide)⟩

/-- An empty file is set to size 1: the byte reads as the keystream. -/
theorem setattr_gap_shows_keystream :
    ¬ GapReadsZero (constCipher 5) zeroKey emptyInode
      (.setattr ⟨some 1, none, false, false, none⟩) := by
  rintro ⟨ino', hgrow, hzero⟩
  obtain rfl : sizedInode emptyInode 1 = ino' := Except.ok.inj hgrow
  have hread := hzero 0 le_rfl Nat.zero_lt_one
  have hfile := ((readsZero_iff (unlocked_sizedInode atRest_emptyInode.unlocked)
    Nat.zero_lt_one).mp hread).1
  exact absurd hfile (by decide)

end Wrapfs
