import Wrapfs.AddressSpace.PageRead

/-!
# What a page write does, and what it reports

`performWrite` is one chunk of a write: `wrapfs_write_begin`, the user copy, `wrapfs_write_end`.
Three questions about a single chunk are answered here exactly, for every state of the file and
every chunk.

## Does it report its errors?

`wrapfs_write_end` keeps the results of the encryption and of the lower write in variables it then
overwrites, so it returns `copied` for every outcome but a failed `alloc_page`, and lengthens the
file.  `writeErrorsReported_iff` lists the outcomes for which that is the truth;
`failed_write_reported_as_success` has a lower write that fails, and a cipher that cannot be had,
each reported as a full write.

## Does it change only what it writes?

`wrapfs_write_begin` never reads the page in: if the page is not cached it is zeroed around the
chunk and marked uptodate.  `wrapfs_write_end` then copies the *lower* size to the inode and
zeroes the page from there on.  `writeKeepsRest_iff` says exactly which bytes survive: the page
has to be uptodate and the byte outside what the last zeroing clears, or the byte has to be zero
anyway.

## Does stale memory become file data?

The zeroing in `wrapfs_write_begin` goes by `len`, the copy may stop at `copied`, and what lies
between is only cleared by `fill_zeros_to_end_of_page`, from the lower size on.  `staleHidden_iff`
is the exact condition.  The bytes given to the lower file are never stale (`storedLower_congr`);
it is the cached page that is, below `i_size`, where a read or a mapping sees it.

`performWrite_of_succeed` is what the last two rest on: the state after a chunk whose calls
succeed, for any cache state and any `copied`.
-/

namespace Wrapfs

open CounterMode Ledger ByteStore

/-! ## Reported errors -/

section Errors

variable (E : BlockCipher) (key : Option Key) (f : LowerFile) (w : Bool) (c : WriteEndCalls)
  (ino : Inode) (pos copied index : ℕ) (page : CachePage)

/-- The page was encrypted: a key is set and the scratch page and all cipher calls were
granted. -/
def PageEncrypted (k : Key) : Prop :=
  key = some k ∧ c.allocPage ≠ none ∧ c.cipher = .succeed

/-- The lower file received `copied` bytes of the encrypted page and is `lower` since. -/
def CiphertextReceived (lower : List Byte) : Prop :=
  ∃ k, PageEncrypted key c k ∧
    vfsWrite c.write f ino.lower (pageStart index)
      (pageBytes (cipherPage E k page.data) 0 copied) = ((copied : ℤ), lower)

/-- The call returns; it returns `copied` only if the lower file received that many bytes of
ciphertext, it writes nothing if nothing was encrypted, and unless the data was received
`i_size` does not grow past the lower size. -/
def WriteErrorsReported : Prop :=
  ∃ r, wrapfsWriteEnd E key (.of f w) c ino pos copied index page = .ok r ∧
    (r.ret = copied → CiphertextReceived E key f c ino copied index page r.inode.lower) ∧
    ((∀ k, ¬ PageEncrypted key c k) → r.inode.lower = ino.lower) ∧
    (¬ CiphertextReceived E key f c ino copied index page r.inode.lower →
      r.inode.iSize ≤ max ino.iSize r.inode.lower.length)

/-- The outcomes for which the code reports the truth: a key is set, and either no scratch
page could be allocated, or the page was encrypted and the lower file took all of it. -/
def WriteFailuresSeen : Prop :=
  ∃ k, key = some k ∧ (c.allocPage = none ∨ c.cipher = .succeed ∧
    (vfsWrite c.write f ino.lower (pageStart index)
      (pageBytes (cipherPage E k page.data) 0 copied)).1 = copied)

end Errors

section Errors

variable {E : BlockCipher} {key : Option Key} {f : LowerFile} {w : Bool} {c : WriteEndCalls}
  {ino : Inode} {pos copied index : ℕ} {page : CachePage}

/-- Except when no scratch page could be allocated, the call returns `copied`. -/
theorem wrapfsWriteEnd_cases :
    (∃ k r, key = some k ∧ c.allocPage = none ∧
      wrapfsWriteEnd E key (.of f w) c ino pos copied index page = .ok r ∧ r.ret = 0 ∧
      r.inode.lower = ino.lower ∧ r.inode.iSize = ino.iSize) ∨
    (∃ r buf, (key = none ∨ c.allocPage ≠ none) ∧
      wrapfsWriteEnd E key (.of f w) c ino pos copied index page = .ok r ∧ r.ret = copied ∧
      r.inode.lower = (vfsWrite c.write f ino.lower (pageStart index) buf).2 ∧
      ∀ k, PageEncrypted key c k → buf = pageBytes (cipherPage E k page.data) 0 copied) := by
  cases key with
  | none =>
      right
      refine ⟨_, pageBytes page.data (pageOffset pos) copied, Or.inl rfl, rfl, rfl, rfl, ?_⟩
      rintro k ⟨hkey, -⟩
      cases hkey
  | some k =>
      cases halloc : c.allocPage with
      | none =>
          have hcall : wrapfsWriteEnd E (some k) (.of f w) c ino pos copied index page = .ok
              { ret := 0
                inode := ino.setPage index { page with locked := false, refs := page.refs - 1 }
                handed := none
                scratch := [.release .mapDst] } := by
            simp only [wrapfsWriteEnd, OpenFile.of, halloc]
          exact Or.inl ⟨k, _, rfl, rfl, hcall, rfl, rfl, rfl⟩
      | some stale =>
          have hcall : wrapfsWriteEnd E (some k) (.of f w) c ino pos copied index page = .ok
              { ret := copied
                inode := writeEndStore c.write f ino pos copied index page
                  (pageBytes (wrapfsEncryptPageNew E c.cipher page.data stale k).dst 0 copied)
                handed := some ⟨pageStart index,
                  pageBytes (wrapfsEncryptPageNew E c.cipher page.data stale k).dst 0 copied⟩
                scratch := [.acquire .dstPage, .acquire .mapDst, .acquire .mapPage] ++
                  (wrapfsEncryptPageNew E c.cipher page.data stale k).scratch ++
                  [.release .mapPage, .release .mapDst] } := by
            simp only [wrapfsWriteEnd, OpenFile.of, halloc]
          refine Or.inr ⟨_, _, Or.inr (Option.some_ne_none stale), hcall, rfl, rfl, ?_⟩
          rintro k' ⟨hkey, -, hcipher⟩
          cases hkey
          rw [hcipher, wrapfsEncryptPageNew_dst]

end Errors

/-- **When a page write reports the truth.**  For every key state, every chunk of at least
one byte and every outcome of the calls: success is reported only for data the lower file
received, nothing but ciphertext is written, and `i_size` does not run ahead of it, if and
only if `WriteFailuresSeen`. -/
theorem writeErrorsReported_iff (E : BlockCipher) (key : Option Key) (f : LowerFile) (w : Bool)
    (c : WriteEndCalls) (ino : Inode) (pos : ℕ) {copied : ℕ} (hcopied : 0 < copied)
    (index : ℕ) (page : CachePage) :
    WriteErrorsReported E key f w c ino pos copied index page ↔
      WriteFailuresSeen E key f c ino copied index page := by
  rcases @wrapfsWriteEnd_cases E key f w c ino pos copied index page with
    ⟨k, r, hkey, halloc, hcall, hret, hlower, hsize⟩ | ⟨r, buf, halloc, hcall, hret, hlower, hbuf⟩
  · -- no scratch page: `0` is returned and nothing is written
    refine iff_of_true ⟨r, hcall, fun h => ?_, fun _ => hlower, fun _ => ?_⟩
      ⟨k, hkey, Or.inl halloc⟩
    · rw [hret] at h
      exact absurd h.symm (Nat.cast_ne_zero.mpr (Nat.ne_of_gt hcopied))
    · rw [hsize]
      exact le_max_left _ _
  · constructor
    · rintro ⟨r', hcall', hreport, -⟩
      obtain rfl : r = r' := Except.ok.inj (hcall.symm.trans hcall')
      obtain ⟨k, ⟨hkey, -, hcipher⟩, hwrite⟩ := hreport hret
      exact ⟨k, hkey, Or.inr ⟨hcipher, by rw [hwrite]⟩⟩
    · rintro ⟨k, hkey, hnone | ⟨hcipher, hwrite⟩⟩
      · rcases halloc with hkey' | hne
        · rw [hkey] at hkey'
          cases hkey'
        · exact absurd hnone hne
      · have halloc' : c.allocPage ≠ none := by
          rcases halloc with hkey' | hne
          · rw [hkey] at hkey'
            cases hkey'
          · exact hne
        have henc : PageEncrypted key c k := ⟨hkey, halloc', hcipher⟩
        have hreceived : CiphertextReceived E key f c ino copied index page r.inode.lower := by
          refine ⟨k, henc, Prod.ext hwrite ?_⟩
          rw [hlower, hbuf k henc]
        exact ⟨r, hcall, fun _ => hreceived, fun hnot => absurd henc (hnot k),
          fun hnot => absurd hreceived hnot⟩

/-- `writeErrorsReported_iff` for the first byte of an empty file, all calls succeeding. -/
theorem writeErrorsReported_iff_one_byte :
    0 < 1 ∧ WriteErrorsReported (constCipher 1) (some zeroKey) ⟨false⟩ true
      ⟨some fun _ => 0, .succeed, .full⟩ emptyInode 0 1 0 (lockedPage fun _ => 0) := by
  refine ⟨Nat.one_pos, (writeErrorsReported_iff _ _ _ _ _ _ _ Nat.one_pos _ _).mpr ?_⟩
  exact ⟨zeroKey, rfl, Or.inr ⟨rfl, rfl⟩⟩

/-- A lower write that fails is reported as a full write, and the file is one byte long with
nothing below it.  A cipher that cannot be allocated is reported as a full write too, and the
lower file has received the byte the scratch page happened to hold. -/
theorem failed_write_reported_as_success :
    (∃ r, wrapfsWriteEnd (constCipher 1) (some zeroKey) (.of ⟨false⟩ true)
        ⟨some fun _ => 85, .succeed, .fail Errno.EIO⟩ emptyInode 0 1 0 (lockedPage fun _ => 0) =
          .ok r ∧
      r.ret = 1 ∧ r.inode.lower = [] ∧ r.inode.iSize = 1) ∧
    (∃ r, wrapfsWriteEnd (constCipher 1) (some zeroKey) (.of ⟨false⟩ true)
        ⟨some fun _ => 85, ⟨some .ENOMEM, none, none⟩, .full⟩ emptyInode 0 1 0
          (lockedPage fun _ => 0) = .ok r ∧
      r.ret = 1 ∧ r.inode.lower = [85]) :=
  ⟨⟨_, rfl, rfl, rfl, rfl⟩, ⟨_, rfl, rfl, rfl⟩⟩

/-! ## The state after a chunk -/

/-- The lower file after the chunk. -/
def storedLower (E : BlockCipher) (k : Key) (f : LowerFile) (ino : Inode) (w : Chunk)
    (stale : Page) : List Byte :=
  (vfsWrite .full f ino.lower (pageStart w.index)
    (pageBytes (cipherPage E k (copiedPage ino w stale)) 0 w.data.length)).2

/-- The size of the lower file after the chunk. -/
def storedSize (f : LowerFile) (ino : Inode) (w : Chunk) : ℕ :=
  if w.data.length = 0 then ino.lower.length
  else if f.append then ino.lower.length + w.data.length
  else max ino.lower.length (pageStart w.index + w.data.length)

/-- The new lower size does not depend on the data. -/
theorem length_storedLower (E : BlockCipher) (k : Key) (f : LowerFile) (ino : Inode)
    (w : Chunk) (stale : Page) :
    (storedLower E k f ino w stale).length = storedSize f ino w := by
  unfold storedLower storedSize
  set buf := pageBytes (cipherPage E k (copiedPage ino w stale)) 0 w.data.length
  have hlen : buf.length = w.data.length := length_pageBytes _ _ _
  split
  · rename_i hzero
    have hnil : buf = [] := List.length_eq_zero_iff.mp (hlen.trans hzero)
    rw [hnil]
    rfl
  · rename_i hpos
    have hne : buf ≠ [] := fun hnil => hpos (by rw [← hlen, hnil]; rfl)
    split
    · rename_i happ
      simp only [vfsWrite, happ, if_true]
      rw [length_pwrite _ _ _ hne, hlen, max_eq_right (Nat.le_add_right _ _)]
    · rename_i happ
      simp only [vfsWrite, happ, Bool.false_eq_true, if_false]
      rw [length_pwrite _ _ _ hne, hlen]

/-- **The state after a chunk** whose calls succeed, for any cached page and however much of
the chunk was copied: it reports what was copied, and the page is uptodate and unlocked. -/
theorem performWrite_of_succeed (E : BlockCipher) (k : Key) (f : LowerFile) (b : Bool)
    (stale scratch : Page) {ino : Inode} {w : Chunk} (hfree : Unlocked ino w.index) :
    ∃ ino' refs, performWrite E (some k) (.of f b) (.succeed stale scratch) ino w =
        .ok (w.data.length, ino') ∧
      ino'.lower = storedLower E k f ino w stale ∧
      ino'.iSize = max (storedSize f ino w) (w.pos + w.data.length) ∧
      ino'.pages w.index = some
        { data := fillZerosToEndOfPage (storedSize f ino w) w.index (copiedPage ino w stale)
            (pageOffset w.pos + w.data.length)
          uptodate := true, locked := false, refs := refs } := by
  obtain ⟨refs, hend⟩ := performWrite_eq_store E k f b stale scratch hfree
  have hlen := length_storedLower E k f ino w stale
  rw [writeEndStore_of_full] at hend
  refine ⟨_, refs - 1, hend, rfl, congrArg (max · _) hlen, ?_⟩
  rw [Inode.setPage_pages_self, ← hlen]
  rfl

/-! ## The bytes around a write -/

/-- In-page offset `i` was written by the chunk. -/
def Chunk.Covers (w : Chunk) (i : Fin pageCacheSize) : Prop :=
  pageOffset w.pos ≤ i.val ∧ i.val < pageOffset w.pos + w.data.length

/-- The byte a read of the page shows at in-page offset `i`: the cached byte if the page is
uptodate, the decrypted lower byte, if there is one, otherwise. -/
def byteBefore (E : BlockCipher) (k : Key) (ino : Inode) (index : ℕ) (i : Fin pageCacheSize) :
    Option Byte :=
  match ino.pages index with
  | none => fileByte E k ino.lower (pageStart index + i.val)
  | some page =>
      if page.uptodate then some (page.data i)
      else fileByte E k ino.lower (pageStart index + i.val)

/-- The page is in the cache, and uptodate. -/
def CachedUptodate (ino : Inode) (index : ℕ) : Prop :=
  ∃ page, ino.pages index = some page ∧ page.uptodate = true

/-- `fill_zeros_to_end_of_page` zeroes in-page offset `i` after the chunk: it lies past the
chunk and not below the new lower size. -/
def TailZeroed (f : LowerFile) (ino : Inode) (w : Chunk) (i : Fin pageCacheSize) : Prop :=
  pageStart w.index ≤ storedSize f ino w ∧ storedSize f ino w ≤ pageStart w.index + i.val ∧
    pageOffset w.pos + w.data.length ≤ i.val

instance (f : LowerFile) (ino : Inode) (w : Chunk) (i : Fin pageCacheSize) :
    Decidable (TailZeroed f ino w i) :=
  inferInstanceAs (Decidable (_ ∧ _ ∧ _))

/-- The chunk reports all its bytes written and leaves an uptodate page that holds them, and
that shows every other byte below the old `i_size` as a read would have shown it. -/
def WriteKeepsRest (E : BlockCipher) (k : Key) (f : LowerFile) (b : Bool) (ino : Inode)
    (w : Chunk) : Prop :=
  ∀ stale scratch, ∃ ino' p,
    performWrite E (some k) (.of f b) (.succeed stale scratch) ino w = .ok (w.len, ino') ∧
    ino'.pages w.index = some p ∧ p.uptodate = true ∧
    (∀ i, w.Covers i → w.data[i.val - pageOffset w.pos]? = some (p.data i)) ∧
    ∀ i, ¬ w.Covers i → pageStart w.index + i.val < ino.iSize →
      ∀ x, byteBefore E k ino w.index i = some x → p.data i = x

/-- What a byte outside the chunk was, as far as the chunk knows: the byte a read shows if
the page is uptodate, zero otherwise. -/
theorem priorByte_eq {E : BlockCipher} {k : Key} {ino : Inode} {index : ℕ}
    {i : Fin pageCacheSize} {x : Byte} (hx : byteBefore E k ino index i = some x) :
    CachedUptodate ino index ∧ priorByte ino index i = x ∨
      ¬ CachedUptodate ino index ∧ priorByte ino index i = 0 := by
  unfold byteBefore at hx
  unfold priorByte CachedUptodate
  cases hpage : ino.pages index with
  | none =>
      right
      refine ⟨?_, rfl⟩
      rintro ⟨page, h, -⟩
      cases h
  | some page =>
      simp only [hpage] at hx ⊢
      by_cases hup : page.uptodate = true
      · left
        rw [if_pos hup] at hx ⊢
        exact ⟨⟨page, rfl, hup⟩, Option.some.inj hx⟩
      · right
        rw [if_neg hup]
        refine ⟨?_, rfl⟩
        rintro ⟨page', h, hup'⟩
        cases h
        exact hup hup'

/-- The byte of the page at in-page offset `i` after a chunk that was copied in full. -/
def byteAfter (f : LowerFile) (ino : Inode) (w : Chunk) (i : Fin pageCacheSize) : Byte :=
  if TailZeroed f ino w i then 0 else writtenPage ino w i

/-- The page at the end of the chunk, byte by byte. -/
theorem fillZeros_copiedPage (f : LowerFile) (ino : Inode) {w : Chunk} (hw : w.InPage)
    (stale : Page) (i : Fin pageCacheSize) :
    fillZerosToEndOfPage (storedSize f ino w) w.index (copiedPage ino w stale)
      (pageOffset w.pos + w.data.length) i = byteAfter f ino w i := by
  rw [fillZerosToEndOfPage_apply, copiedPage_of_inPage hw]
  rfl

/-- Only the bytes outside the chunk are in question. -/
theorem writeKeepsRest_iff_byteAfter (E : BlockCipher) (k : Key) (f : LowerFile) (b : Bool)
    {ino : Inode} {w : Chunk} (hw : w.InPage) (hfree : Unlocked ino w.index) :
    WriteKeepsRest E k f b ino w ↔
      ∀ i, ¬ w.Covers i → pageStart w.index + i.val < ino.iSize →
        ∀ x, byteBefore E k ino w.index i = some x → byteAfter f ino w i = x := by
  constructor
  · intro hkeep i hi hsize x hx
    obtain ⟨ino', p, hwrite, hp, -, -, hbytes⟩ := hkeep (fun _ => 0) (fun _ => 0)
    obtain ⟨ino'', refs, hwrite', -, -, hp'⟩ :=
      performWrite_of_succeed E k f b (fun _ => 0) (fun _ => 0) hfree
    obtain rfl : ino' = ino'' := congrArg Prod.snd (Except.ok.inj (hwrite.symm.trans hwrite'))
    obtain rfl := Option.some.inj (hp.symm.trans hp')
    exact (fillZeros_copiedPage f ino hw _ i).symm.trans (hbytes i hi hsize x hx)
  · intro hcond stale scratch
    obtain ⟨ino', refs, hwrite, -, -, hp⟩ :=
      performWrite_of_succeed E k f b stale scratch hfree
    rw [hw.full] at hwrite
    refine ⟨ino', _, hwrite, hp, rfl, fun i hi => ?_, fun i hi hsize x hx => ?_⟩
    · have hin : fillZerosToEndOfPage (storedSize f ino w) w.index (copiedPage ino w stale)
          (pageOffset w.pos + w.data.length) i = copiedPage ino w stale i :=
        fillZerosToEndOfPage_of_lt _ (Or.inr hi.2)
      exact (storeBytes_of_mem _ hi).trans (congrArg some hin.symm)
    · exact (fillZeros_copiedPage f ino hw stale i).trans (hcond i hi hsize x hx)

/-- **What a write leaves of the rest of its page.**  For every file, every size and every
chunk inside one page: the bytes around the chunk survive if and only if each of them is zero,
or the page is uptodate in the cache and the byte is not past the lower size. -/
theorem writeKeepsRest_iff (E : BlockCipher) (k : Key) (f : LowerFile) (b : Bool) {ino : Inode}
    {w : Chunk} (hw : w.InPage) (hfree : Unlocked ino w.index) :
    WriteKeepsRest E k f b ino w ↔
      ∀ i, ¬ w.Covers i → pageStart w.index + i.val < ino.iSize →
        ∀ x, byteBefore E k ino w.index i = some x →
          x = 0 ∨ CachedUptodate ino w.index ∧ ¬ TailZeroed f ino w i := by
  rw [writeKeepsRest_iff_byteAfter E k f b hw hfree]
  refine forall₂_congr fun i hi => forall₃_congr fun _ x hx => ?_
  have hprior : writtenPage ino w i = priorByte ino w.index i := storeBytes_of_not_mem _ hi
  rw [byteAfter, hprior]
  rcases priorByte_eq hx with ⟨hup, hval⟩ | ⟨hup, hval⟩
  · by_cases hz : TailZeroed f ino w i
    · simp [hz, eq_comm]
    · simp [hz, hup, hval]
  · simp [hup, hval, eq_comm]

/-- The first byte of a file is overwritten. -/
def firstChunk : Chunk := ⟨0, 1, [9]⟩

theorem firstChunk_inPage : firstChunk.InPage := ⟨by decide, rfl⟩

/-- A file with one cached page. -/
def cachedInode (lower : List Byte) (iSize : ℕ) (data : Page) : Inode :=
  { (Inode.fresh lower).setPage 0 ⟨data, true, false, 0⟩ with iSize := iSize }

theorem unlocked_cachedInode (lower : List Byte) (iSize : ℕ) (data : Page) :
    Unlocked (cachedInode lower iSize data) 0 := by
  intro page hpage
  cases hpage
  rfl

/-- `writeKeepsRest_iff` for the first byte of a file whose page is in the cache. -/
theorem writeKeepsRest_iff_cached :
    firstChunk.InPage ∧ WriteKeepsRest (constCipher 1) zeroKey ⟨false⟩ true
      (cachedInode [7, 8] 2 fun _ => 5) firstChunk := by
  refine ⟨firstChunk_inPage, (writeKeepsRest_iff _ _ _ _ firstChunk_inPage
    (unlocked_cachedInode _ _ _)).mpr ?_⟩
  -- both bytes lie below the lower size, so neither is zeroed
  intro i _ hsize x _
  refine Or.inr ⟨⟨_, rfl, rfl⟩, ?_⟩
  rintro ⟨-, hge, -⟩
  exact absurd hsize (not_lt.mpr hge)

/-- A file of two bytes that is not cached: overwriting the first byte turns the second into
a zero.  A file whose upper size has run ahead of its lower size: overwriting the first byte
of the cached page zeroes the bytes past the lower size. -/
theorem write_destroys_rest :
    ¬ WriteKeepsRest (constCipher 1) zeroKey ⟨false⟩ true (.fresh [7, 8]) firstChunk ∧
      ¬ WriteKeepsRest (constCipher 1) zeroKey ⟨false⟩ true (cachedInode [7] 2 fun _ => 5)
        firstChunk := by
  have hout : ¬ firstChunk.Covers 1 := by
    rintro ⟨-, h⟩
    exact absurd h (by decide)
  have hfree : Unlocked (.fresh [7, 8]) 0 := by
    intro page hpage
    cases hpage
  rw [writeKeepsRest_iff_byteAfter _ _ _ _ firstChunk_inPage hfree,
    writeKeepsRest_iff_byteAfter _ _ _ _ firstChunk_inPage (unlocked_cachedInode _ _ _)]
  constructor
  · intro h
    exact absurd (h 1 hout (by decide) 9 (by decide)) (by decide)
  · intro h
    exact absurd (h 1 hout (by decide) 5 rfl) (by decide)

/-! ## Stale memory -/

/-- Whatever the pages allocated for the cache and for the cipher held, the chunk reports the
same, leaves the same lower file and the same size, and an uptodate page with the same bytes
below that size. -/
def StaleHidden (E : BlockCipher) (k : Key) (f : LowerFile) (b : Bool) (ino : Inode)
    (w : Chunk) : Prop :=
  ∀ stale stale' scratch scratch', ∃ ret ino₁ ino₂ p₁ p₂,
    performWrite E (some k) (.of f b) (.succeed stale scratch) ino w = .ok (ret, ino₁) ∧
    performWrite E (some k) (.of f b) (.succeed stale' scratch') ino w = .ok (ret, ino₂) ∧
    ino₁.lower = ino₂.lower ∧ ino₁.iSize = ino₂.iSize ∧
    ino₁.pages w.index = some p₁ ∧ ino₂.pages w.index = some p₂ ∧
    p₁.uptodate = true ∧ p₂.uptodate = true ∧
    ∀ i : Fin pageCacheSize, pageStart w.index + i.val < ino₁.iSize → p₁.data i = p₂.data i

section Stale

variable {ino : Inode} {w : Chunk}

/-- A page newly allocated holds, after the copy, the user's bytes, what it held before on
the part of the chunk that was not copied, and zeros around the chunk. -/
theorem copiedPage_apply (hfresh : ino.pages w.index = none)
    (hfits : pageOffset w.pos + w.len ≤ pageCacheSize) (stale : Page)
    {i : Fin pageCacheSize} (hi : ¬ w.Covers i) :
    copiedPage ino w stale i =
      if pageOffset w.pos ≤ i.val ∧ i.val < pageOffset w.pos + w.len then stale i else 0 := by
  have hlt := i.isLt
  have hbegun : begunPage ino w stale = preparedPage stale false w := by
    unfold begunPage
    rw [hfresh]
  rw [copiedPage, storeBytes_of_not_mem _ hi, hbegun, preparedPage]
  by_cases hlen : w.len = pageCacheSize
  · rw [if_neg (fun h => h.2 hlen), if_pos]
    omega
  · rw [if_pos ⟨rfl, hlen⟩, zeroUserSegments, zeroUserSegment, zeroUserSegment]
    by_cases hlow : i.val < pageOffset w.pos
    · rw [if_neg (by omega), if_pos ⟨Nat.zero_le _, hlow⟩, if_neg (by omega)]
    · by_cases hhigh : i.val < pageOffset w.pos + w.len
      · rw [if_neg (by omega), if_neg (by omega), if_pos ⟨not_lt.mp hlow, hhigh⟩]
      · rw [if_pos ⟨not_lt.mp hhigh, hlt⟩, if_neg (fun h => hhigh h.2)]

/-- The user's bytes. -/
theorem copiedPage_of_covers (stale : Page) {i : Fin pageCacheSize} (hi : w.Covers i) :
    w.data[i.val - pageOffset w.pos]? = some (copiedPage ino w stale i) :=
  storeBytes_of_mem _ hi

/-- Below the end of what was copied, the page does not depend on what it held. -/
theorem copiedPage_congr (hfresh : ino.pages w.index = none)
    (hfits : pageOffset w.pos + w.len ≤ pageCacheSize) (stale stale' : Page)
    {i : Fin pageCacheSize} (hi : i.val < pageOffset w.pos + w.data.length) :
    copiedPage ino w stale i = copiedPage ino w stale' i := by
  rcases Nat.lt_or_ge i.val (pageOffset w.pos) with hlow | hlow
  · have hout : ¬ w.Covers i := fun h => absurd h.1 (not_le.mpr hlow)
    have hwin : ¬ (pageOffset w.pos ≤ i.val ∧ i.val < pageOffset w.pos + w.len) :=
      fun h => absurd h.1 (not_le.mpr hlow)
    rw [copiedPage_apply hfresh hfits stale hout, copiedPage_apply hfresh hfits stale' hout,
      if_neg hwin, if_neg hwin]
  · have hin : w.Covers i := ⟨hlow, hi⟩
    exact Option.some.inj ((copiedPage_of_covers stale hin).symm.trans
      (copiedPage_of_covers stale' hin))

/-- The bytes handed to the lower file are the first ones of the page, as many as were
copied, so they never are stale. -/
theorem storedLower_congr (E : BlockCipher) (k : Key) (f : LowerFile)
    (hfresh : ino.pages w.index = none)
    (hfits : pageOffset w.pos + w.len ≤ pageCacheSize) (stale stale' : Page) :
    storedLower E k f ino w stale = storedLower E k f ino w stale' := by
  have hbytes : pageBytes (cipherPage E k (copiedPage ino w stale)) 0 w.data.length =
      pageBytes (cipherPage E k (copiedPage ino w stale')) 0 w.data.length := by
    refine List.map_congr_left fun j hj => ?_
    have hj : j < w.data.length := List.mem_range.mp hj
    by_cases hin : 0 + j < pageCacheSize
    · rw [dif_pos hin, dif_pos hin, cipherPage, cipherPage,
        copiedPage_congr hfresh hfits stale stale'
          (show 0 + j < pageOffset w.pos + w.data.length by omega)]
    · rw [dif_neg hin, dif_neg hin]
  rw [storedLower, storedLower, hbytes]

/-- **When stale memory stays out of the file.**  For every file, every size and every chunk
inside one page that is not cached, with any part of it copied: what the allocated pages held
stays hidden if and only if the copy was complete or the lower file ends, after the chunk, no
later than the copy did. -/
theorem staleHidden_iff (E : BlockCipher) (k : Key) (f : LowerFile) (b : Bool)
    (hfresh : ino.pages w.index = none)
    (hfits : pageOffset w.pos + w.len ≤ pageCacheSize) (hcopied : w.data.length ≤ w.len) :
    StaleHidden E k f b ino w ↔
      w.data.length = w.len ∨ storedSize f ino w ≤ w.pos + w.data.length := by
  have hfree : Unlocked ino w.index := by
    intro page hpage
    rw [hfresh] at hpage
    cases hpage
  have hpos := w.pos_eq
  constructor
  · intro hhidden
    by_contra hnot
    obtain ⟨hshort, hsize⟩ := not_or.mp hnot
    -- the first byte that was not copied lies below the lower size
    have hlt : pageOffset w.pos + w.data.length < pageCacheSize := by omega
    obtain ⟨ret, ino₁, ino₂, p₁, p₂, hw₁, hw₂, -, -, hp₁, hp₂, -, -, hbytes⟩ :=
      hhidden (fun _ => 0) (fun _ => 1) (fun _ => 0) (fun _ => 0)
    obtain ⟨i₁, refs₁, hw₁', -, hsize₁, hp₁'⟩ :=
      performWrite_of_succeed E k f b (fun _ => 0) (fun _ => 0) hfree
    obtain ⟨i₂, refs₂, hw₂', -, -, hp₂'⟩ :=
      performWrite_of_succeed E k f b (fun _ => 1) (fun _ => 0) hfree
    obtain rfl : ino₁ = i₁ := congrArg Prod.snd (Except.ok.inj (hw₁.symm.trans hw₁'))
    obtain rfl : ino₂ = i₂ := congrArg Prod.snd (Except.ok.inj (hw₂.symm.trans hw₂'))
    obtain rfl := Option.some.inj (hp₁.symm.trans hp₁')
    obtain rfl := Option.some.inj (hp₂.symm.trans hp₂')
    have hbelow : pageStart w.index + (pageOffset w.pos + w.data.length) <
        storedSize f ino w := by omega
    have hstale : ∀ stale : Page, fillZerosToEndOfPage (storedSize f ino w) w.index
        (copiedPage ino w stale) (pageOffset w.pos + w.data.length)
        ⟨pageOffset w.pos + w.data.length, hlt⟩ =
          stale ⟨pageOffset w.pos + w.data.length, hlt⟩ := by
      intro stale
      rw [fillZerosToEndOfPage_of_lt _ (Or.inl hbelow),
        copiedPage_apply hfresh hfits stale fun h => lt_irrefl _ h.2, if_pos]
      exact ⟨Nat.le_add_right _ _, Nat.add_lt_add_left (lt_of_le_of_ne hcopied hshort) _⟩
    have heq := hbytes ⟨pageOffset w.pos + w.data.length, hlt⟩ (by
      rw [hsize₁]
      exact lt_max_of_lt_left hbelow)
    have hone : (0 : Byte) = 1 := (hstale _).symm.trans (heq.trans (hstale _))
    exact absurd hone (by decide)
  · intro hcond stale stale' scratch scratch'
    obtain ⟨ino₁, refs₁, hw₁, hlower₁, hsize₁, hp₁⟩ :=
      performWrite_of_succeed E k f b stale scratch hfree
    obtain ⟨ino₂, refs₂, hw₂, hlower₂, hsize₂, hp₂⟩ :=
      performWrite_of_succeed E k f b stale' scratch' hfree
    refine ⟨_, ino₁, ino₂, _, _, hw₁, hw₂, ?_, hsize₁.trans hsize₂.symm, hp₁, hp₂, rfl, rfl,
      fun i hi => ?_⟩
    · rw [hlower₁, hlower₂]
      exact storedLower_congr E k f hfresh hfits stale stale'
    · rw [hsize₁] at hi
      show fillZerosToEndOfPage _ _ _ _ i = fillZerosToEndOfPage _ _ _ _ i
      rw [fillZerosToEndOfPage_apply, fillZerosToEndOfPage_apply]
      refine if_congr Iff.rfl rfl ?_
      rcases Nat.lt_or_ge i.val (pageOffset w.pos + w.data.length) with hlow | hhigh
      · exact copiedPage_congr hfresh hfits stale stale' hlow
      · have hout : ¬ w.Covers i := fun h => absurd h.2 (not_lt.mpr hhigh)
        rcases hcond with hfull | hend
        · -- past a complete copy lie the zeros of `wrapfs_write_begin`
          have hwin : ¬ (pageOffset w.pos ≤ i.val ∧ i.val < pageOffset w.pos + w.len) :=
            fun h => absurd h.2 (not_lt.mpr (hfull ▸ hhigh))
          rw [copiedPage_apply hfresh hfits stale hout,
            copiedPage_apply hfresh hfits stale' hout, if_neg hwin, if_neg hwin]
        · rw [max_eq_right hend] at hi
          omega

/-- `staleHidden_iff` for two bytes at the start of an empty file of which one was copied. -/
theorem staleHidden_iff_empty :
    emptyInode.pages 0 = none ∧
      StaleHidden (constCipher 1) zeroKey ⟨false⟩ true emptyInode ⟨0, 2, [9]⟩ :=
  ⟨rfl, (staleHidden_iff _ _ _ _ rfl (by decide) (by decide)).mpr (Or.inr (by decide))⟩

/-- In a file of two bytes that is not cached, a write of two bytes of which only one is
copied leaves the second byte of the page as the allocator left it, below `i_size`. -/
theorem short_copy_shows_stale :
    ∃ ret₁ ret₂ ino₁ ino₂ p₁ p₂,
      performWrite (constCipher 1) (some zeroKey) (.of ⟨false⟩ true)
        (.succeed (fun _ => 0) fun _ => 0) (.fresh [7, 8]) ⟨0, 2, [9]⟩ = .ok (ret₁, ino₁) ∧
      performWrite (constCipher 1) (some zeroKey) (.of ⟨false⟩ true)
        (.succeed (fun _ => 66) fun _ => 0) (.fresh [7, 8]) ⟨0, 2, [9]⟩ = .ok (ret₂, ino₂) ∧
      ino₁.pages 0 = some p₁ ∧ ino₂.pages 0 = some p₂ ∧ p₁.uptodate = true ∧
      p₂.uptodate = true ∧ 1 < ino₁.iSize ∧ 1 < ino₂.iSize ∧ p₁.data 1 = 0 ∧
      p₂.data 1 = 66 := by
  have hfree : Unlocked (.fresh [7, 8]) 0 := by
    intro page hpage
    cases hpage
  obtain ⟨ino₁, refs₁, hw₁, -, hsize₁, hp₁⟩ := performWrite_of_succeed (constCipher 1) zeroKey
    ⟨false⟩ true (fun _ => 0) (fun _ => 0) (w := ⟨0, 2, [9]⟩) hfree
  obtain ⟨ino₂, refs₂, hw₂, -, hsize₂, hp₂⟩ := performWrite_of_succeed (constCipher 1) zeroKey
    ⟨false⟩ true (fun _ => 66) (fun _ => 0) (w := ⟨0, 2, [9]⟩) hfree
  refine ⟨_, _, ino₁, ino₂, _, _, hw₁, hw₂, hp₁, hp₂, rfl, rfl, ?_, ?_, rfl, rfl⟩
  · rw [hsize₁]
    decide
  · rw [hsize₂]
    decide

end Stale

end Wrapfs
