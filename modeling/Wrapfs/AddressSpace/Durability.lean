import Wrapfs.AddressSpace.Coherence
import Wrapfs.Foundations.Runs

/-!
# Durability of writes

When are the bytes of a sequence of writes in the lower file once `wrapfs_flush` has returned? Not
always: `wrapfs_flush` runs `wrapfs_writepage` on every dirty page, but the test at the head of
`wrapfs_writepage` sends every page whose inode *has* a lower inode straight to `unlock_page`. So
a flush stores nothing (`wrapfsFlush_eq`), and what is durable is what `wrapfs_write_end` has
stored by itself.

`Durable` is what the user can rely on after a flush: the sizes agree, and every uptodate page is,
below `i_size`, what the lower file decrypts to and what a read shows once the page has been
dropped.  At rest this is the agreement of cache and lower file (`flushedDurably_iff`), before the
flush as well as after it.

## The result

`writes_durable_iff` is the exact answer over whole runs: starting from a file whose cache agrees
with its lower file, every prefix of a run of writes is durable if and only if every write of the
run meets `StoresChange` in the state it finds.  It is the library's `forall_prefix_iff_along` at
`agrees_written_iff`.  The prefixes cannot be dropped: a write that loses bytes may be followed by
one that stores them after all.

`overwrites_durable` is a run that meets the condition although one of its writes starts inside a
page; `second_byte_not_stored` is the smallest run that does not meet it: two one-byte writes to
an empty file, of which the second is reported written, flushed with success, and gone.
-/

namespace Wrapfs

open CounterMode Ledger ByteStore Runs

/-! ## `wrapfs_flush` stores nothing -/

/-- `wrapfs_writepage` on an unlocked uptodate page of an inode that has a lower
inode gives back the page as it was. -/
theorem writeCachePage_eq (c : WritepageCalls) {ino : Inode} {index : ℕ}
    (hfree : Unlocked ino index)
    (hup : ∀ page, ino.pages index = some page → page.uptodate = true)
    (hlower : ino.lowerInode = true) :
    ∃ d ⊆ ino.dirty, writeCachePage c ino index = .ok (0, { ino with dirty := d }) := by
  cases hpage : ino.pages index with
  | none =>
      refine ⟨ino.dirty, List.Subset.refl _, ?_⟩
      simp only [writeCachePage, hpage]
  | some page =>
      refine ⟨ino.dirty.filter (· ≠ index), fun _ => List.mem_of_mem_filter, ?_⟩
      have hsame : (⟨page.data, true, false, page.refs⟩ : CachePage) = page := by
        rw [← hfree page hpage, ← hup page hpage]
      have hupdate : Function.update ino.pages index (some page) = ino.pages := by
        rw [← hpage]
        exact Function.update_eq_self index ino.pages
      simp only [writeCachePage, hpage, hfree page hpage, Bool.false_eq_true, if_false,
        wrapfsWritepage, hup page hpage, hlower, if_true, Inode.setPage]
      rw [hsame, hupdate]

/-- All dirty pages are handed to `wrapfs_writepage`, and all come back. -/
theorem writeCachePages_eq (c : WritepageCalls) {indices : List ℕ} :
    ∀ {ino : Inode}, (∀ index ∈ indices, Unlocked ino index) →
      (∀ index ∈ indices, ∀ page, ino.pages index = some page → page.uptodate = true) →
      ino.lowerInode = true →
      ∃ d ⊆ ino.dirty, writeCachePages c indices ino = .ok (0, { ino with dirty := d }) := by
  induction indices with
  | nil => exact fun {ino} _ _ _ => ⟨ino.dirty, List.Subset.refl _, rfl⟩
  | cons index rest ih =>
      intro ino hfree hup hlower
      obtain ⟨d, hsub, hd⟩ :=
        writeCachePage_eq c (hfree index (by simp)) (hup index (by simp)) hlower
      -- the dirty tags do not enter the hypotheses, so the rest of the list meets them
      have hfree' : ∀ j ∈ rest, Unlocked { ino with dirty := d } j :=
        fun j hj => hfree j (List.mem_cons_of_mem _ hj)
      have hup' : ∀ j ∈ rest, ∀ page,
          Inode.pages { ino with dirty := d } j = some page → page.uptodate = true :=
        fun j hj => hup j (List.mem_cons_of_mem _ hj)
      obtain ⟨d', hsub', hd'⟩ := ih hfree' hup' hlower
      refine ⟨d', List.Subset.trans hsub' hsub, ?_⟩
      simp only [writeCachePages, hd, if_true]
      exact hd'

/-- **`wrapfs_flush` stores nothing**: at rest it returns what the lower `->flush`
returns and leaves the lower file, the sizes and every page as they were. -/
theorem wrapfsFlush_eq (c : WritepageCalls) (lowerFlush : Option ℤ) {ino : Inode}
    (hrest : AtRest ino) :
    ∃ d ⊆ ino.dirty, wrapfsFlush c lowerFlush .plain ino =
      .ok (lowerFlush.getD 0, { ino with dirty := d }) := by
  obtain ⟨d, hsub, hd⟩ := writeCachePages_eq c (fun index _ => hrest.unlocked index)
    hrest.dirty_uptodate hrest.lowerInode
  refine ⟨d, hsub, ?_⟩
  simp only [wrapfsFlush, OpenFile.plain, if_true, hd, lt_irrefl, if_false]

/-! ## Durable states -/

/-- What the user can rely on after a flush. -/
structure Durable (E : BlockCipher) (k : Key) (ino : Inode) : Prop where
  /-- The lower file is as long as the upper one. -/
  size : ino.lower.length = ino.iSize
  /-- Decrypting the lower byte at a file offset gives the cached byte.  (A page
  that is not uptodate has no contents as far as the VFS is concerned.) -/
  bytes : ∀ index page, ino.pages index = some page → page.uptodate = true →
    ∀ i : Fin pageCacheSize, pageStart index + i.val < ino.iSize →
      fileByte E k ino.lower (pageStart index + i.val) = some (page.data i)
  /-- Dropping a page and reading it again shows the same bytes. -/
  reread : ∀ index page, ino.pages index = some page → page.uptodate = true →
    ∀ scratch stale, ∃ r page',
      vfsReadpage E (some k) .plain (.succeed scratch) stale (evictPage ino index) index =
        .ok r ∧
      r.ret = 0 ∧ r.inode.pages index = some page' ∧ page'.uptodate = true ∧
      ∀ i : Fin pageCacheSize, pageStart index + i.val < ino.iSize →
        page'.data i = page.data i

/-- `wrapfs_flush` reports success when the lower `->flush` does, and the state it
leaves is durable. -/
def FlushedDurably (E : BlockCipher) (k : Key) (ino : Inode) : Prop :=
  ∀ c lowerFlush, ∃ ino',
    wrapfsFlush c lowerFlush .plain ino = .ok (lowerFlush.getD 0, ino') ∧ Durable E k ino'

/-- Where cache and lower file agree, what is cached is stored. -/
theorem Agrees.durable {E : BlockCipher} {k : Key} {ino : Inode} (hrest : AtRest ino)
    (hagree : Agrees E k ino) : Durable E k ino := by
  refine ⟨hagree.size.symm, hagree.bytes, fun index page hpage hup scratch stale => ?_⟩
  have hfree : Unlocked (evictPage ino index) index := hrest.evict.unlocked index
  obtain ⟨r, refs, hr, hret, hinode⟩ := vfsReadpage_eq E k scratch stale OpenFile.plain_info hfree
  refine ⟨r, _, hr, hret, by rw [hinode, Inode.setPage_pages_self], rfl, fun i hi => ?_⟩
  have hold := hagree.bytes index page hpage hup i hi
  rw [hagree.size] at hi
  have hnew := fileByte_eq_readPageData E k scratch hi
  rw [evictPage_lower]
  exact Option.some.inj (hnew.symm.trans hold)

/-- At rest, durability after a flush is the agreement of cache and lower file
before it: the flush itself contributes nothing. -/
theorem flushedDurably_iff {E : BlockCipher} {k : Key} {ino : Inode} (hrest : AtRest ino) :
    FlushedDurably E k ino ↔ Agrees E k ino := by
  constructor
  · intro h
    obtain ⟨ino', hflush, hdurable⟩ := h ⟨true, false, 0⟩ none
    obtain ⟨d, -, hd⟩ := wrapfsFlush_eq ⟨true, false, 0⟩ none hrest
    have hino' : ino' = { ino with dirty := d } :=
      congrArg Prod.snd (Except.ok.inj (hflush.symm.trans hd))
    subst hino'
    exact ⟨hdurable.size.symm, hdurable.bytes⟩
  · intro hagree c lowerFlush
    obtain ⟨d, hsub, hd⟩ := wrapfsFlush_eq c lowerFlush hrest
    have hrest' : AtRest { ino with dirty := d } :=
      ⟨hrest.unlocked, fun index hmem => hrest.dirty_uptodate index (hsub hmem),
        hrest.lowerInode⟩
    exact ⟨_, hd, Agrees.durable hrest' ⟨hagree.size, hagree.bytes⟩⟩

/-! ## Runs of writes -/

/-- One chunk of a write, with what the two pages allocated for it held. -/
structure WriteReq extends Chunk where
  stale : Page
  scratch : Page

/-- A write with key `k` set, in which every call succeeds. -/
def writeStep (E : BlockCipher) (k : Key) (ino : Inode) (a : WriteReq) :
    Except Fault Inode :=
  match performWrite E (some k) .plain (.succeed a.stale a.scratch) ino a.toChunk with
  | .error fault => .error fault
  | .ok (_, ino') => .ok ino'

/-- The writes considered: a chunk inside one page, copied in full, that starts
at most at the end of the file. -/
structure Admissible (ino : Inode) (a : WriteReq) : Prop where
  inPage : a.InPage
  pos_le : a.pos ≤ ino.iSize

/-- A write with everything granted. -/
theorem writeStep_eq (E : BlockCipher) (k : Key) {ino : Inode} {a : WriteReq}
    (hfree : Unlocked ino a.index) (hw : a.InPage) :
    ∃ refs, writeStep E k ino a = .ok (written E k ino a.toChunk refs) := by
  obtain ⟨refs, h⟩ := performWrite_eq E k a.stale a.scratch hw hfree
  refine ⟨refs, ?_⟩
  rw [writeStep, h]

/-- **When writes are durable.**  Start from any file at rest whose cache agrees
with its decrypted lower file, and take any run of admissible writes.  Then the
state after *every* prefix of the run is durable once flushed if and only if
every write of the run meets `StoresChange` in the state it finds. -/
theorem writes_durable_iff (E : BlockCipher) (k : Key) {ino : Inode} (hrest : AtRest ino)
    (hagree : Agrees E k ino) {ws : List WriteReq}
    (hadm : Along (writeStep E k) Admissible ino ws) :
    (∀ pre, pre <+: ws → ∃ ino', run (writeStep E k) ino pre = .ok ino' ∧
        FlushedDurably E k ino') ↔
      Along (writeStep E k) (fun s a => StoresChange E k s a.toChunk) ino ws := by
  -- an admissible write returns, and leaves the file at rest
  have hwrite : ∀ s a, AtRest s → Admissible s a →
      ∃ refs, writeStep E k s a = .ok (written E k s a.toChunk refs) ∧
        AtRest (written E k s a.toChunk refs) := by
    intro s a hrest hadm
    obtain ⟨refs, hstep⟩ := writeStep_eq E k (hrest.unlocked a.index) hadm.inPage
    exact ⟨refs, hstep, hrest.written refs⟩
  refine forall_prefix_iff_along (J := AtRest) (Q := Admissible) ?_ ?_ hrest
    ((flushedDurably_iff hrest).mpr hagree) hadm
  · intro s a s' hrest hadm hstep
    obtain ⟨refs, hstep', hrest'⟩ := hwrite s a hrest hadm
    obtain rfl := Except.ok.inj (hstep'.symm.trans hstep)
    exact hrest'
  · intro s a hrest hdurable hadm
    have hagree := (flushedDurably_iff hrest).mp hdurable
    obtain ⟨refs, hstep, hrest'⟩ := hwrite s a hrest hadm
    rw [← agrees_written_iff hagree hadm.inPage hadm.pos_le refs, ← flushedDurably_iff hrest']
    constructor
    · rintro ⟨s', hs', hdurable'⟩
      obtain rfl := Except.ok.inj (hstep.symm.trans hs')
      exact hdurable'
    · exact fun hdurable' => ⟨_, hstep, hdurable'⟩

/-! ## The smallest run that loses a byte -/

theorem atRest_emptyInode : AtRest emptyInode := by
  refine ⟨fun index page hpage => ?_, fun index hmem => ?_, rfl⟩
  · cases hpage
  · cases hmem

/-- An empty file agrees with an empty lower file. -/
theorem agrees_emptyInode (E : BlockCipher) (k : Key) : Agrees E k emptyInode := by
  refine ⟨rfl, fun index page hpage => ?_⟩
  cases hpage

/-- The one-byte write of `b` at `pos`, with zeroed pages to work in. -/
def byteWrite (pos : ℕ) (b : Byte) : WriteReq :=
  ⟨⟨pos, 1, [b]⟩, fun _ => 0, fun _ => 0⟩

theorem byteWrite_inPage (pos : ℕ) (b : Byte) : (byteWrite pos b).InPage :=
  ⟨pageOffset_lt pos, rfl⟩

/-- A write of `data` at `pos`, with zeroed pages to work in. -/
def bytesWrite (pos : ℕ) (data : List Byte) : WriteReq :=
  ⟨⟨pos, data.length, data⟩, fun _ => 0, fun _ => 0⟩

/-- A file of three bytes is made; its second byte is overwritten, in one write with the third,
which stays as it is; then all of it is overwritten by four bytes. -/
def overwrites : List WriteReq :=
  [bytesWrite 0 [104, 105, 106], bytesWrite 1 [73, 106], bytesWrite 0 [100, 101, 102, 103]]

/-- `writes_durable_iff` for these writes.  The second starts inside the page, and stores its first
byte because its in-page offset is below the length of the write. -/
theorem overwrites_durable :
    ∃ ino', run (writeStep offsetCipher zeroKey) emptyInode overwrites = .ok ino' ∧
      ino'.iSize = 4 ∧ FlushedDurably offsetCipher zeroKey ino' := by
  -- the states the writes leave
  obtain ⟨refs₁, h₁⟩ := writeStep_eq offsetCipher zeroKey (a := bytesWrite 0 [104, 105, 106])
    (atRest_emptyInode.unlocked _) ⟨by decide, rfl⟩
  have hrest₁ := AtRest.written atRest_emptyInode refs₁
    (E := offsetCipher) (k := zeroKey) (w := (bytesWrite 0 [104, 105, 106]).toChunk)
  have hlower₁ : (written offsetCipher zeroKey emptyInode
      (bytesWrite 0 [104, 105, 106]).toChunk refs₁).lower = [105, 107, 105] := by
    rw [written_lower]
    decide +kernel
  have hsize₁ : (written offsetCipher zeroKey emptyInode
      (bytesWrite 0 [104, 105, 106]).toChunk refs₁).iSize = 3 := by
    rw [written_iSize, ← written_lower _ _ _ _ refs₁, hlower₁]
    rfl
  have hup₁ : ∃ page, (written offsetCipher zeroKey emptyInode
      (bytesWrite 0 [104, 105, 106]).toChunk refs₁).pages 0 = some page ∧ page.uptodate = true :=
    ⟨_, rfl, rfl⟩
  generalize written offsetCipher zeroKey emptyInode (bytesWrite 0 [104, 105, 106]).toChunk refs₁ =
    s₁ at h₁ hrest₁ hlower₁ hsize₁ hup₁
  obtain ⟨refs₂, h₂⟩ := writeStep_eq offsetCipher zeroKey (a := bytesWrite 1 [73, 106])
    (hrest₁.unlocked _) ⟨by decide, rfl⟩
  have hup₂ : ∃ page, (written offsetCipher zeroKey s₁ (bytesWrite 1 [73, 106]).toChunk refs₂).pages
      0 = some page ∧ page.uptodate = true := ⟨_, rfl, rfl⟩
  have hrest₂ := hrest₁.written refs₂
    (E := offsetCipher) (k := zeroKey) (w := (bytesWrite 1 [73, 106]).toChunk)
  have hsize₂ : (written offsetCipher zeroKey s₁ (bytesWrite 1 [73, 106]).toChunk refs₂).lower.length =
      3 := by
    rw [written_lower, length_writtenLower, hlower₁]
    decide +kernel
  generalize written offsetCipher zeroKey s₁ (bytesWrite 1 [73, 106]).toChunk refs₂ =
    s₂ at h₂ hrest₂ hup₂ hsize₂
  obtain ⟨refs₃, h₃⟩ := writeStep_eq offsetCipher zeroKey
    (a := bytesWrite 0 [100, 101, 102, 103]) (hrest₂.unlocked _) ⟨by decide, rfl⟩
  have hrun := (run_cons_of_ok h₁ [bytesWrite 1 [73, 106], bytesWrite 0 [100, 101, 102, 103]]).trans
    ((run_cons_of_ok h₂ [bytesWrite 0 [100, 101, 102, 103]]).trans (run_cons_of_ok h₃ []))
  have hadm : Along (writeStep offsetCipher zeroKey) Admissible emptyInode overwrites := by
    refine ⟨⟨⟨by decide, rfl⟩, le_rfl⟩, fun s hs => ?_⟩
    obtain rfl := Except.ok.inj (h₁.symm.trans hs)
    refine ⟨⟨⟨by decide, rfl⟩, ?_⟩, fun s hs => ⟨⟨⟨by decide, rfl⟩, Nat.zero_le _⟩, fun _ _ => trivial⟩⟩
    rw [hsize₁]
    decide
  have hstores : Along (writeStep offsetCipher zeroKey)
      (fun s a => StoresChange offsetCipher zeroKey s a.toChunk) emptyInode overwrites := by
    refine ⟨⟨Or.inl rfl, fun j hj hge => ?_, Or.inr fun i _ _ hlt => absurd hlt (Nat.not_lt_zero _)⟩,
      fun s hs => ?_⟩
    · have hoff : pageOffset (bytesWrite 0 [104, 105, 106]).pos = 0 := rfl
      omega
    obtain rfl := Except.ok.inj (h₁.symm.trans hs)
    refine ⟨⟨Or.inr hsize₁.ge, fun j hj hge => ?_, Or.inl hup₁⟩, fun s hs => ?_⟩
    · -- of the two bytes only the third of the file is past the length of the write
      have hj' : j < 2 := hj
      have hge' : 2 ≤ 1 + j := hge
      obtain rfl : j = 1 := by omega
      rw [hlower₁]
      decide
    obtain rfl := Except.ok.inj (h₂.symm.trans hs)
    refine ⟨⟨Or.inl rfl, fun j hj hge => ?_, Or.inl hup₂⟩, fun _ _ => trivial⟩
    have hoff : pageOffset (bytesWrite 0 [100, 101, 102, 103]).pos = 0 := rfl
    omega
  obtain ⟨ino', hrun', hdurable⟩ := (writes_durable_iff offsetCipher zeroKey atRest_emptyInode
    (agrees_emptyInode _ _) hadm).mpr hstores _ (List.prefix_refl _)
  obtain rfl := Except.ok.inj (hrun'.symm.trans hrun)
  refine ⟨_, hrun, ?_, hdurable⟩
  rw [written_iSize, length_writtenLower, hsize₂]
  rfl

/-- **A byte is lost.**  Write `a` at offset 0 of an empty file, then `b` at
offset 1, and flush: the flush reports success, `i_size` is 2, and the lower file
holds one byte. -/
theorem second_byte_not_stored :
    Along (writeStep (constCipher 0) zeroKey) Admissible emptyInode
        [byteWrite 0 97, byteWrite 1 98] ∧
      ∃ ino' ino'',
        run (writeStep (constCipher 0) zeroKey) emptyInode [byteWrite 0 97, byteWrite 1 98] =
          .ok ino' ∧
        wrapfsFlush ⟨true, false, 0⟩ none .plain ino' = .ok (0, ino'') ∧
        ino''.iSize = 2 ∧ ino''.lower.length = 1 := by
  obtain ⟨refs₁, h₁⟩ := writeStep_eq (constCipher 0) zeroKey
    (atRest_emptyInode.unlocked (byteWrite 0 97).index) (byteWrite_inPage 0 97)
  have hrest₁ := AtRest.written atRest_emptyInode refs₁
    (E := (constCipher 0)) (k := zeroKey) (w := (byteWrite 0 97).toChunk)
  have hlower₁ : (written (constCipher 0) zeroKey emptyInode
      (byteWrite 0 97).toChunk refs₁).lower.length = 1 := by
    rw [written_lower, length_writtenLower]
    rfl
  have hsize₁ : (written (constCipher 0) zeroKey emptyInode
      (byteWrite 0 97).toChunk refs₁).iSize = 1 := by
    rw [written_iSize, ← written_lower _ _ _ _ refs₁, hlower₁]
    rfl
  generalize written (constCipher 0) zeroKey emptyInode (byteWrite 0 97).toChunk refs₁ = s₁
    at h₁ hrest₁ hlower₁ hsize₁
  obtain ⟨refs₂, h₂⟩ := writeStep_eq (constCipher 0) zeroKey
    (hrest₁.unlocked (byteWrite 1 98).index) (byteWrite_inPage 1 98)
  have hlower₂ : (written (constCipher 0) zeroKey s₁
      (byteWrite 1 98).toChunk refs₂).lower.length = 1 := by
    rw [written_lower, length_writtenLower, hlower₁]
    simp [byteWrite, Chunk.index, pageStart, pageIndex, pageCacheSize]
  have hsize₂ : (written (constCipher 0) zeroKey s₁ (byteWrite 1 98).toChunk refs₂).iSize = 2 := by
    rw [written_iSize, ← written_lower _ _ _ _ refs₂, hlower₂]
    rfl
  obtain ⟨d, -, hflush⟩ := wrapfsFlush_eq ⟨true, false, 0⟩ none (hrest₁.written refs₂)
  refine ⟨⟨⟨byteWrite_inPage 0 97, le_rfl⟩, fun s' hs' => ?_⟩, _, _, ?_, hflush, hsize₂, hlower₂⟩
  · obtain rfl := Except.ok.inj (h₁.symm.trans hs')
    exact ⟨⟨byteWrite_inPage 1 98, hsize₁.ge⟩, fun _ _ => trivial⟩
  · rw [run_cons_of_ok h₁, run_cons_of_ok h₂, run_nil]

end Wrapfs
