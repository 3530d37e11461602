import Wrapfs.AddressSpace.Durability

/-!
# Page-aligned use: the file system as a plain sequence of bytes

The abstract file is a list of bytes, and a write on it is `pwrite`.  `Holds` relates an inode to
an abstract file: both sizes are its length, the lower file is its page-wise ciphertext, and every
uptodate page shows it.  By `holds_iff` it is the agreement of cache and lower file together with
which file that is, so that everything known about agreement carries over.

## The condition

A write is *aligned* when it starts on a page boundary at most at the end of the file, and finds
its page uptodate in the cache or covers all bytes of the file in it (`AlignedWrite`).  The first
half makes what is stored and what is written the same bytes.  The second is needed because
`wrapfs_write_begin` does not read: a partial write over an uncached page would show zeros where
the file goes on.  Evictions and reads are unrestricted.

`AlignedWrite.storesChange` connects this to the exact condition of
`Wrapfs.AddressSpace.Durability`, and `fileByte_aligned` says which file results.

## Steps and runs

`pageStep_holds` is the step: a page-aligned write, an eviction or a `wrapfs_readpage` takes
related states to related states.  The run results follow by the simulation rule.  `Streams`
describes the use this is made for, a file written from start to end in page-sized chunks, the
last one possibly short, with evictions and reads anywhere in between, and needs no condition on
states at all: that each of its writes is aligned in the state it finds is proved
(`Streams.along`), not assumed.
-/

namespace Wrapfs

open CounterMode Ledger ByteStore Runs

/-! ## The abstract file -/

/-- The ciphertext of a file: every byte XORed with the keystream at its in-page
offset. -/
def pageCiphertext (E : BlockCipher) (k : Key) (content : List Byte) : List Byte :=
  content.mapIdx fun off b => cipherByte E k (pageOffset off) b

/-- A lower file is the ciphertext of `content` when its bytes decrypt to it. -/
theorem eq_pageCiphertext_iff {E : BlockCipher} {k : Key} {lower content : List Byte} :
    lower = pageCiphertext E k content ↔
      ∀ off, fileByte E k lower off = content[off]? := by
  constructor
  · rintro rfl off
    rw [fileByte, pageCiphertext, List.getElem?_mapIdx, Option.map_map]
    cases content[off]? with
    | none => rfl
    | some b => exact congrArg some (cipherByte_cipherByte E k _ b)
  · intro h
    ext1 off
    rw [pageCiphertext, List.getElem?_mapIdx, ← h off, fileByte, Option.map_map]
    cases lower[off]? with
    | none => rfl
    | some b => exact congrArg some (cipherByte_cipherByte E k _ b).symm

/-- An inode whose file is `content`. -/
structure Holds (E : BlockCipher) (k : Key) (ino : Inode) (content : List Byte) : Prop where
  iSize : ino.iSize = content.length
  lowerSize : ino.lower.length = content.length
  lower : ino.lower = pageCiphertext E k content
  cached : ∀ index page, ino.pages index = some page → page.uptodate = true →
    ∀ i : Fin pageCacheSize, pageStart index + i.val < ino.iSize →
      content[pageStart index + i.val]? = some (page.data i)

/-- An inode holds some content exactly when its cache agrees with its lower file;
the content is then what the lower file decrypts to. -/
theorem holds_iff {E : BlockCipher} {k : Key} {ino : Inode} {content : List Byte} :
    Holds E k ino content ↔
      Agrees E k ino ∧ ∀ off, fileByte E k ino.lower off = content[off]? := by
  constructor
  · intro h
    have hbyte := eq_pageCiphertext_iff.mp h.lower
    refine ⟨⟨h.iSize.trans h.lowerSize.symm, fun index page hpage hup i hlt => ?_⟩, hbyte⟩
    rw [hbyte]
    exact h.cached index page hpage hup i hlt
  · rintro ⟨hagree, hbyte⟩
    have hlower := eq_pageCiphertext_iff.mpr hbyte
    have hlen : ino.lower.length = content.length := by
      rw [hlower, pageCiphertext, List.length_mapIdx]
    refine ⟨hagree.size.trans hlen, hlen, hlower, fun index page hpage hup i hlt => ?_⟩
    rw [← hbyte]
    exact hagree.bytes index page hpage hup i hlt

/-! ## Actions -/

/-- What happens to a file: a write, the eviction of a page, a `readpage`. -/
inductive PageAction where
  | write (a : WriteReq)
  | evict (index : ℕ)
  | readpage (index : ℕ) (scratch stale : Page)

/-- One action with key `k` set, in which every call succeeds. -/
def pageStep (E : BlockCipher) (k : Key) (ino : Inode) : PageAction → Except Fault Inode
  | .write a => writeStep E k ino a
  | .evict index => .ok (evictPage ino index)
  | .readpage index scratch stale =>
      match vfsReadpage E (some k) .plain (.succeed scratch) stale ino index with
      | .error fault => .error fault
      | .ok r => .ok r.inode

/-- The same action on the abstract file. -/
def contentStep (content : List Byte) : PageAction → List Byte
  | .write a => pwrite 0 content a.pos a.data
  | .evict _ => content
  | .readpage _ _ _ => content

/-- A write that starts on a page boundary at most at the end of the file, and
finds its page uptodate in the cache or covers all bytes of the file in it. -/
structure AlignedWrite (ino : Inode) (a : WriteReq) : Prop extends Admissible ino a where
  aligned : pageOffset a.pos = 0
  covers : (∃ page, ino.pages a.index = some page ∧ page.uptodate = true) ∨
    ∀ off < ino.iSize, pageIndex off = a.index → off < a.pos + a.len

/-- Page-aligned use: writes are aligned, evictions and reads are arbitrary. -/
def AlignedUse (ino : Inode) : PageAction → Prop
  | .write a => AlignedWrite ino a
  | .evict _ => True
  | .readpage _ _ _ => True

/-- It starts where its page starts. -/
theorem AlignedWrite.pos_eq {ino : Inode} {a : WriteReq} (h : AlignedWrite ino a) :
    a.pos = pageStart a.index := by
  have hpos := a.toChunk.pos_eq
  have haligned := h.aligned
  omega

/-- What it does not store it does not change. -/
theorem AlignedWrite.storesChange {E : BlockCipher} {k : Key} {ino : Inode}
    {a : WriteReq} (h : AlignedWrite ino a) : StoresChange E k ino a.toChunk := by
  have haligned := h.aligned
  have hpos := h.pos_eq
  refine ⟨Or.inl haligned, fun j hj hge => by omega, ?_⟩
  rcases h.covers with hup | hcovers
  · exact Or.inl hup
  · refine Or.inr fun i hi _ hlt => ?_
    have := hcovers _ hlt (pageIndex_pageStart_add _ i)
    omega

/-- **A chunk on a page boundary is the abstract write.** -/
theorem fileByte_aligned {E : BlockCipher} {k : Key} {ino : Inode} {a : WriteReq}
    (h : AlignedWrite ino a) {content : List Byte} (hlen : ino.iSize = content.length)
    (hsize : ino.iSize = ino.lower.length)
    (hbyte : ∀ off, fileByte E k ino.lower off = content[off]?) (off : ℕ) :
    fileByte E k (writtenLower E k ino a.toChunk) off =
      (pwrite 0 content a.pos a.data)[off]? := by
  have hpos := h.pos_eq
  have hfull := h.inPage.full
  have hfits := h.inPage.fits
  have haligned := h.aligned
  have hle := h.pos_le
  have hstart : pageStart a.index ≤ ino.lower.length := by omega
  rw [getElem?_pwrite 0 a.data (by omega)]
  by_cases hmem : pageStart a.index ≤ off ∧ off < pageStart a.index + a.len
  · obtain ⟨i, rfl⟩ : ∃ i : Fin pageCacheSize, pageStart a.index + i.val = off :=
      ⟨⟨off - pageStart a.index, by omega⟩, by
        show pageStart a.index + (off - pageStart a.index) = off
        omega⟩
    rw [if_pos (by omega), fileByte_writtenLower_of_lt hstart (by omega)]
    have hdata : a.data[i.val - pageOffset a.pos]? = some (writtenPage ino a.toChunk i) :=
      storeBytes_of_mem _ (by omega)
    rw [← hdata]
    congr 1
    omega
  · rw [if_neg (by omega), fileByte_writtenLower_of_not_mem hstart hmem, hbyte]

/-- **One step.**  An aligned action is matched by the abstract file. -/
theorem pageStep_holds {E : BlockCipher} {k : Key} {ino : Inode} {content : List Byte}
    {a : PageAction} (hrest : AtRest ino) (hholds : Holds E k ino content)
    (ha : AlignedUse ino a) :
    ∃ ino', pageStep E k ino a = .ok ino' ∧ AtRest ino' ∧
      Holds E k ino' (contentStep content a) := by
  obtain ⟨hagree, hbyte⟩ := holds_iff.mp hholds
  cases a with
  | write a =>
      obtain ⟨refs, hstep⟩ := writeStep_eq E k (hrest.unlocked a.index) ha.inPage
      refine ⟨_, hstep, hrest.written refs, holds_iff.mpr ⟨?_, ?_⟩⟩
      · exact (agrees_written_iff hagree ha.inPage ha.pos_le refs).mpr ha.storesChange
      · exact fileByte_aligned ha hholds.iSize hagree.size hbyte
  | evict index =>
      refine ⟨_, rfl, hrest.evict, holds_iff.mpr ⟨hagree.evict, fun off => ?_⟩⟩
      rw [evictPage_lower]
      exact hbyte off
  | readpage index scratch stale =>
      obtain ⟨r, refs, hr, -, hinode⟩ :=
        vfsReadpage_eq E k scratch stale OpenFile.plain_info (hrest.unlocked index)
      refine ⟨r.inode, ?_, ?_, holds_iff.mpr ⟨?_, ?_⟩⟩
      · simp only [pageStep, hr]
      · rw [hinode]
        exact hrest.setPage rfl rfl
      · rw [hinode]
        exact hagree.readpage scratch refs
      · rw [hinode]
        exact hbyte

/-! ## Streaming a file -/

/-- The run writes `content` from offset `pos` on in page-sized chunks, the last
one possibly short; evictions and reads come anywhere. -/
inductive Streams : ℕ → List Byte → List PageAction → Prop
  | done (pos : ℕ) : Streams pos [] []
  | chunk {pos : ℕ} {content : List Byte} {as : List PageAction} (a : WriteReq)
      (hne : content ≠ []) (hpos : a.pos = pos) (hlen : a.len = a.data.length)
      (hdata : a.data = content.take pageCacheSize)
      (rest : Streams (pos + pageCacheSize) (content.drop pageCacheSize) as) :
      Streams pos content (.write a :: as)
  | evict {pos : ℕ} {content : List Byte} {as : List PageAction} (index : ℕ)
      (rest : Streams pos content as) : Streams pos content (.evict index :: as)
  | readpage {pos : ℕ} {content : List Byte} {as : List PageAction} (index : ℕ)
      (scratch stale : Page) (rest : Streams pos content as) :
      Streams pos content (.readpage index scratch stale :: as)

/-- A stream is aligned use, and what it writes is its content, appended. -/
theorem Streams.along {E : BlockCipher} {k : Key} {pos : ℕ} {content : List Byte}
    {as : List PageAction} (h : Streams pos content as) :
    ∀ {ino : Inode} {done : List Byte}, AtRest ino → Holds E k ino done →
      (content ≠ [] → pos = done.length ∧ pageOffset pos = 0) →
      Along (pageStep E k) AlignedUse ino as ∧
        as.foldl contentStep done = done ++ content := by
  -- an action that is not a write is always aligned and leaves the content alone
  have hskip : ∀ {a : PageAction} {as : List PageAction} {content : List Byte}
      {ino : Inode} {done : List Byte}, AlignedUse ino a → contentStep done a = done →
      AtRest ino → Holds E k ino done →
      (∀ {ino : Inode}, AtRest ino → Holds E k ino done →
        Along (pageStep E k) AlignedUse ino as ∧ as.foldl contentStep done = done ++ content) →
      Along (pageStep E k) AlignedUse ino (a :: as) ∧
        (a :: as).foldl contentStep done = done ++ content := by
    intro a as content ino done ha hsame hrest hholds ih
    obtain ⟨ino', hstep, hrest', hholds'⟩ := pageStep_holds hrest hholds ha
    rw [hsame] at hholds'
    obtain ⟨halong, hfold⟩ := ih hrest' hholds'
    refine ⟨⟨ha, fun s' hs' => ?_⟩, ?_⟩
    · obtain rfl := Except.ok.inj (hstep.symm.trans hs')
      exact halong
    · rw [List.foldl_cons, hsame, hfold]
  induction h with
  | done pos => exact fun _ _ _ => ⟨trivial, (List.append_nil _).symm⟩
  | evict index rest ih =>
      intro ino done hrest hholds hpos
      exact hskip trivial rfl hrest hholds fun hr hh => ih hr hh hpos
  | readpage index scratch stale rest ih =>
      intro ino done hrest hholds hpos
      exact hskip trivial rfl hrest hholds fun hr hh => ih hr hh hpos
  | @chunk pos content as a hne hpos hlen hdata rest ih =>
      intro ino done hrest hholds hcond
      obtain ⟨hend, haligned⟩ := hcond hne
      have hsize := hholds.iSize
      have hdlen : a.data.length = min pageCacheSize content.length := by
        rw [hdata, List.length_take]
      have ha : AlignedWrite ino a := by
        refine ⟨⟨⟨?_, hlen.symm⟩, by omega⟩, by rw [hpos, haligned], Or.inr ?_⟩
        · rw [hpos, haligned]
          omega
        · intro off hoff _
          omega
      obtain ⟨ino', hstep, hrest', hholds'⟩ := pageStep_holds hrest hholds
        (a := .write a) ha
      have happend : contentStep done (.write a) = done ++ a.data := by
        rw [contentStep, hpos, hend, pwrite_length]
      rw [happend] at hholds'
      -- the next chunk starts where this one ended unless this one was short
      have hnext : content.drop pageCacheSize ≠ [] →
          pos + pageCacheSize = (done ++ a.data).length ∧
            pageOffset (pos + pageCacheSize) = 0 := by
        intro hmore
        have hlong : pageCacheSize < content.length := by
          by_contra hshort
          exact hmore (List.drop_eq_nil_of_le (by omega))
        refine ⟨by rw [List.length_append]; omega, ?_⟩
        rw [pageOffset, Nat.add_mod_right]
        exact haligned
      obtain ⟨halong, hfold⟩ := ih hrest' hholds' hnext
      refine ⟨⟨ha, fun s' hs' => ?_⟩, ?_⟩
      · obtain rfl := Except.ok.inj (hstep.symm.trans hs')
        exact halong
      · rw [List.foldl_cons, happend, hfold, hdata, List.append_assoc,
          List.take_append_drop]

/-- A new file is empty. -/
theorem holds_emptyInode (E : BlockCipher) (k : Key) : Holds E k emptyInode [] :=
  holds_iff.mpr ⟨agrees_emptyInode E k, fun _ => rfl⟩

/-- **Aligned use from an empty file.**  After any aligned run every copy of the
data is in step: both sizes are the abstract file's, the lower file is its
page-wise ciphertext, every uptodate page shows it. -/
theorem pageStep_run_holds {E : BlockCipher} {k : Key} {as : List PageAction}
    (h : Along (pageStep E k) AlignedUse emptyInode as) :
    ∃ ino', run (pageStep E k) emptyInode as = .ok ino' ∧ AtRest ino' ∧
      Holds E k ino' (as.foldl contentStep []) := by
  refine h.simulation (R := fun ino c => AtRest ino ∧ Holds E k ino c) ?_
    ⟨atRest_emptyInode, holds_emptyInode E k⟩
  rintro ino content a ⟨hrest, hholds⟩ ha
  exact pageStep_holds hrest hholds ha

/-- **Coherence of page-aligned use.**  Every state an aligned run from the empty
file reaches holds the abstract file the run describes.  In particular a file
streamed in page-sized chunks, with evictions and reads anywhere, reads back page
by page as it was written. -/
theorem aligned_use_coherent (E : BlockCipher) (k : Key) :
    (∀ as, Along (pageStep E k) AlignedUse emptyInode as →
      ∃ ino', run (pageStep E k) emptyInode as = .ok ino' ∧
        Holds E k ino' (as.foldl contentStep [])) ∧
    ∀ content as, Streams 0 content as →
      ∃ ino', run (pageStep E k) emptyInode as = .ok ino' ∧
        ino'.iSize = content.length ∧
        ∀ index scratch stale, ∃ page ino'',
          readCachePage E (some k) .plain (.succeed scratch) stale ino' index =
            .ok (.ok page, ino'') ∧
          ∀ i : Fin pageCacheSize, pageStart index + i.val < content.length →
            content[pageStart index + i.val]? = some (page i) := by
  constructor
  · intro as h
    obtain ⟨ino', hrun, -, hholds⟩ := pageStep_run_holds h
    exact ⟨ino', hrun, hholds⟩
  · intro content as h
    obtain ⟨halong, hfold⟩ :=
      h.along atRest_emptyInode (holds_emptyInode E k) fun _ => ⟨rfl, rfl⟩
    obtain ⟨ino', hrun, hrest, hholds⟩ := pageStep_run_holds halong
    rw [hfold, List.nil_append] at hholds
    obtain ⟨hagree, hbyte⟩ := holds_iff.mp hholds
    refine ⟨ino', hrun, hholds.iSize, fun index scratch stale => ?_⟩
    obtain ⟨ino'', hread, -⟩ :=
      readCachePage_eq OpenFile.plain_info (hrest.unlocked index) scratch stale
    refine ⟨_, ino'', hread, fun i hi => ?_⟩
    rw [← hbyte]
    exact fileByte_eq_shownPage hagree scratch (by rwa [hholds.iSize])

/-- A page of letters and one byte more. -/
def pageAndByte : List Byte := List.replicate pageCacheSize 97 ++ [98]

/-- It is streamed in two chunks, each page evicted after its chunk is written. -/
def streamTwoPages : List PageAction :=
  [.write (bytesWrite 0 (pageAndByte.take pageCacheSize)), .evict 0,
    .write (bytesWrite pageCacheSize (pageAndByte.drop pageCacheSize)), .evict 1]

/-- `aligned_use_coherent` for this stream: with nothing left in the cache, the last byte of the
first page and the first byte of the second are read back. -/
theorem aligned_use_coherent_twoPages :
    ∃ ino', run (pageStep offsetCipher zeroKey) emptyInode streamTwoPages = .ok ino' ∧
      ino'.iSize = pageCacheSize + 1 ∧
      ∀ scratch stale,
        (∃ page ino'', readCachePage offsetCipher (some zeroKey) .plain (.succeed scratch) stale
            ino' 0 = .ok (.ok page, ino'') ∧ page ⟨pageCacheSize - 1, by decide⟩ = 97) ∧
        ∃ page ino'', readCachePage offsetCipher (some zeroKey) .plain (.succeed scratch) stale
            ino' 1 = .ok (.ok page, ino'') ∧ page ⟨0, by decide⟩ = 98 := by
  have htake : pageAndByte.take pageCacheSize = List.replicate pageCacheSize 97 :=
    List.take_left' List.length_replicate
  have hdrop : pageAndByte.drop pageCacheSize = [98] := List.drop_left' List.length_replicate
  have hstreams : Streams 0 pageAndByte streamTwoPages := by
    refine .chunk _ (List.append_ne_nil_of_right_ne_nil _ (List.cons_ne_nil _ _)) rfl rfl rfl
      (.evict 0 ?_)
    rw [hdrop]
    exact .chunk _ (List.cons_ne_nil _ _) (Nat.zero_add _).symm rfl rfl (.evict 1 (.done _))
  obtain ⟨ino', hrun, hsize, hread⟩ :=
    (aligned_use_coherent offsetCipher zeroKey).2 pageAndByte streamTwoPages hstreams
  have hlen : pageAndByte.length = pageCacheSize + 1 := by
    rw [pageAndByte, List.length_append, List.length_replicate]
    rfl
  refine ⟨ino', hrun, hsize.trans hlen, fun scratch stale => ⟨?_, ?_⟩⟩
  · obtain ⟨page, ino'', hpage, hbyte⟩ := hread 0 scratch stale
    refine ⟨page, ino'', hpage, ?_⟩
    have hlast := hbyte ⟨pageCacheSize - 1, by decide⟩ (by rw [hlen]; decide)
    have hcontent : pageAndByte[pageCacheSize - 1]? = some 97 := by
      rw [pageAndByte, List.getElem?_append_left (by rw [List.length_replicate]; decide),
        List.getElem?_replicate, if_pos (by decide)]
    have hoff : pageStart 0 + (pageCacheSize - 1) = pageCacheSize - 1 := rfl
    rw [show ((⟨pageCacheSize - 1, by decide⟩ : Fin pageCacheSize)).val = pageCacheSize - 1 from rfl,
      hoff, hcontent] at hlast
    exact (Option.some.inj hlast).symm
  · obtain ⟨page, ino'', hpage, hbyte⟩ := hread 1 scratch stale
    refine ⟨page, ino'', hpage, ?_⟩
    have hfirst := hbyte ⟨0, by decide⟩ (by rw [hlen]; decide)
    have hcontent : pageAndByte[pageCacheSize]? = some 98 := by
      rw [pageAndByte, List.getElem?_append_right (by rw [List.length_replicate]),
        List.length_replicate, Nat.sub_self]
      rfl
    have hoff : pageStart 1 + 0 = pageCacheSize := by
      rw [pageStart, Nat.add_zero, Nat.one_mul]
    rw [hoff, hcontent] at hfirst
    exact (Option.some.inj hfirst).symm

end Wrapfs
