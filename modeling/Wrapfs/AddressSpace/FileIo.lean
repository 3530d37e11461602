import Wrapfs.AddressSpace.Durability

/-!
# `read` and `write` on an aops mount

In a mount with the `mmap` option `read` and `write` are the kernel's generic routines: `write`
cuts the user's bytes at page boundaries and drives `write_begin`, the copy and `write_end` for
each piece; `read` fetches page after page, from the cache or through `wrapfs_readpage`, and
copies what lies below `i_size`.

## The loops

Both loops are modelled with their early exits.  A piece for which `wrapfs_write_end` reports 0
bytes is tried again, so the write loop is driven by the list of answers its attempts get, and has
not returned when they run out; a result about it therefore has to say how many attempts are
enough.  The read loop makes progress in every turn, so the count is fuel enough.

A loop that has transferred something returns how much, and an error only if it came first.  This
is why a write that fails half way is reported short and not as an error, in the model as in the
kernel.

## What is read off

Three facts are stated for whole calls, and the modules about keys, concealment and volumes use
these and not the loops.

* Without a key a write returns `-EPERM` and touches nothing (`genericPerformWrite_none`).
* With a key, on a file whose cache agrees with its lower file, a write whose pieces all store
  what they change returns and keeps the agreement (`genericPerformWrite_of_agrees`).
* There a read returns the decrypted lower bytes from its position to its count or the end of the
  file (`genericFileRead_of_agrees`).

A read without a key is in `readCachePage_none`: it fails on the first page that is not uptodate,
and leaves that page locked.
-/

namespace Wrapfs

open CounterMode Ledger ByteStore Runs

/-! ## `write` -/

/-- The pieces of a write of `data` at `pos`: each ends at a page boundary or with
the data.  Every piece takes at least one byte, so `data.length` is fuel enough. -/
def chunksFrom : ℕ → ℕ → List Byte → List Chunk
  | 0, _, _ => []
  | fuel + 1, pos, data =>
      if data.isEmpty then []
      else
        let n := min (pageCacheSize - pageOffset pos) data.length
        ⟨pos, n, data.take n⟩ :: chunksFrom fuel (pos + n) (data.drop n)

/-- The pieces of a write. -/
def writeChunks (pos : ℕ) (data : List Byte) : List Chunk := chunksFrom data.length pos data

/-- `generic_perform_write`, with `written` bytes reported so far. -/
def genericPerformWrite (E : BlockCipher) (key : Option Key) (fd : OpenFile) :
    List ChunkCalls → Inode → ℕ → List Chunk → Except Fault (ℤ × Inode)
  | _, ino, written, [] => .ok (written, ino)
  | [], _, _, _ :: _ => .error .blocked
  | c :: cs, ino, written, w :: ws =>
      match performWrite E key fd c ino w with
      | .error fault => .error fault
      | .ok (status, ino') =>
          if status < 0 then .ok (if written = 0 then status else written, ino')
          -- nothing was stored: the same piece is tried again
          else if status = 0 then genericPerformWrite E key fd cs ino' written (w :: ws)
          else genericPerformWrite E key fd cs ino' (written + status.toNat) ws

/-- Every piece lies in one page. -/
theorem chunksFrom_inPage {fuel pos : ℕ} {data : List Byte} :
    ∀ w ∈ chunksFrom fuel pos data, w.InPage ∧ 0 < w.len := by
  induction fuel generalizing pos data with
  | zero =>
      intro w hw
      cases hw
  | succ fuel ih =>
      intro w hw
      have hoff := pageOffset_lt pos
      unfold chunksFrom at hw
      split at hw
      · cases hw
      · rename_i hne
        have hpos : 0 < data.length := by
          rw [List.length_pos_iff]
          simpa using hne
        rcases List.mem_cons.mp hw with rfl | hw
        · refine ⟨⟨?_, ?_⟩, ?_⟩
          · show pageOffset pos + min (pageCacheSize - pageOffset pos) data.length ≤ _
            omega
          · exact (List.length_take ..).trans (min_eq_left (min_le_right _ _))
          · show 0 < min (pageCacheSize - pageOffset pos) data.length
            omega
        · exact ih w hw

/-- A write of something has a piece. -/
theorem writeChunks_ne_nil {pos : ℕ} {data : List Byte} (h : data ≠ []) :
    writeChunks pos data ≠ [] := by
  cases data with
  | nil => exact absurd rfl h
  | cons b rest => simp [writeChunks, chunksFrom]

/-- **Without a key nothing is written**: the first `write_begin` refuses. -/
theorem genericPerformWrite_none (E : BlockCipher) (fd : OpenFile) {cs : List ChunkCalls}
    (hcs : cs ≠ []) (ino : Inode) {ws : List Chunk} (hws : ws ≠ []) :
    genericPerformWrite E none fd cs ino 0 ws = .ok (Errno.EPERM.ret, ino) := by
  obtain ⟨c, cs, rfl⟩ := List.exists_cons_of_ne_nil hcs
  obtain ⟨w, ws, rfl⟩ := List.exists_cons_of_ne_nil hws
  have hneg := Errno.EPERM.ret_neg
  have hne := Errno.EPERM.ret_ne_zero
  simp only [genericPerformWrite, performWrite, wrapfsWriteBegin, hne, hneg, ne_eq, if_true,
    not_false_eq_true]

/-- What a piece of a write must find: its page unlocked, the file at least as long
as its position, and that it stores all it changes. -/
structure PieceOk (E : BlockCipher) (k : Key) (ino : Inode) (a : WriteReq) : Prop where
  unlocked : Unlocked ino a.index
  pos_le : a.pos ≤ ino.iSize
  stores : StoresChange E k ino a.toChunk

/-- **A whole write.**  With a key set, every call succeeding and every piece in
order, the loop returns and keeps cache and lower file in agreement. -/
theorem genericPerformWrite_of_agrees {E : BlockCipher} {k : Key} {reqs : List WriteReq}
    (hreqs : ∀ a ∈ reqs, a.InPage ∧ 0 < a.len) :
    ∀ {ino : Inode} (written : ℕ), Agrees E k ino →
      Along (writeStep E k) (PieceOk E k) ino reqs →
      ∃ ret ino', genericPerformWrite E (some k) .plain
          (reqs.map fun a => .succeed a.stale a.scratch) ino written
          (reqs.map WriteReq.toChunk) = .ok (ret, ino') ∧ Agrees E k ino' := by
  induction reqs with
  | nil => exact fun {ino} written hagree _ => ⟨written, ino, rfl, hagree⟩
  | cons a reqs ih =>
      intro ino written hagree halong
      obtain ⟨hin, hpos⟩ := hreqs a List.mem_cons_self
      obtain ⟨hfree, hle, hstores⟩ := halong.1
      obtain ⟨refs, hwrite⟩ := performWrite_eq E k a.stale a.scratch hin hfree
      have hstep : writeStep E k ino a = .ok (Wrapfs.written E k ino a.toChunk refs) := by
        rw [writeStep, hwrite]
      have hagree' := (agrees_written_iff hagree hin hle refs).mpr hstores
      obtain ⟨ret, ino', hloop, hfinal⟩ :=
        ih (fun b hb => hreqs b (List.mem_cons_of_mem _ hb)) (written + a.len) hagree'
          (halong.2 _ hstep)
      refine ⟨ret, ino', ?_, hfinal⟩
      have hneg : ¬ (a.len : ℤ) < 0 := by omega
      have hzero : ¬ (a.len : ℤ) = 0 := by omega
      simp only [List.map_cons, genericPerformWrite, hwrite, hneg, hzero, if_false,
        Int.toNat_natCast, hloop]

/-! ## `read` -/

/-- `do_generic_file_read`: the bytes copied so far are `acc`.  `c` and `stale` are
the answers and the fresh cache page for each page index.  The result is the
return value and the bytes delivered. -/
def genericFileRead (E : BlockCipher) (key : Option Key) (fd : OpenFile)
    (c : ℕ → ReadpageCalls) (stale : ℕ → Page) :
    ℕ → Inode → ℕ → ℕ → List Byte → Except Fault (ℤ × List Byte × Inode)
  | 0, ino, _, _, acc => .ok (acc.length, acc, ino)
  | fuel + 1, ino, pos, count, acc =>
      if count = 0 then .ok (acc.length, acc, ino)
      else
        match readCachePage E key fd (c (pageIndex pos)) (stale (pageIndex pos)) ino
            (pageIndex pos) with
        | .error fault => .error fault
        | .ok (.error err, ino') => .ok (if acc = [] then err else acc.length, acc, ino')
        | .ok (.ok page, ino') =>
            -- what the page has of the file, from `pos` on
            let nr := min (pageCacheSize - pageOffset pos) (ino'.iSize - pos)
            if nr = 0 then .ok (acc.length, acc, ino')
            else
              let n := min nr count
              genericFileRead E key fd c stale fuel ino' (pos + n) (count - n)
                (acc ++ pageBytes page (pageOffset pos) n)

/-- `read(fd, buf, count)` at position `pos`. -/
def readFile (E : BlockCipher) (key : Option Key) (fd : OpenFile) (c : ℕ → ReadpageCalls)
    (stale : ℕ → Page) (ino : Inode) (pos count : ℕ) :
    Except Fault (ℤ × List Byte × Inode) :=
  genericFileRead E key fd c stale count ino pos count []

/-- The bytes a page contributes are those of the file. -/
theorem fileByte_pageBytes {E : BlockCipher} {k : Key} {lower : List Byte} {iSize pos n j : ℕ}
    {page : Page}
    (hpage : ∀ i : Fin pageCacheSize, pageStart (pageIndex pos) + i.val < iSize →
      fileByte E k lower (pageStart (pageIndex pos) + i.val) = some (page i))
    (hfits : pageOffset pos + n ≤ pageCacheSize) (hsize : pos + n ≤ iSize) (hj : j < n) :
    (pageBytes page (pageOffset pos) n)[j]? = fileByte E k lower (pos + j) := by
  have hpos := pageStart_add_pageOffset pos
  have hin : pageOffset pos + j < pageCacheSize := by omega
  have hoff : pageStart (pageIndex pos) + (pageOffset pos + j) = pos + j := by omega
  have hbyte := hpage ⟨pageOffset pos + j, hin⟩ (by rw [hoff]; omega)
  rw [hoff] at hbyte
  rw [getElem?_pageBytes _ hj hin, hbyte]

section Reading

variable {E : BlockCipher} {k : Key} {fd : OpenFile} {f : LowerFile}
  {scratch stale : ℕ → Page}

/-- **What a read returns.**  On a file whose cache agrees with its lower file, and
whose pages in the range are unlocked, a read with all calls succeeding returns
the decrypted lower bytes, as many as were asked for or as the file has. -/
theorem genericFileRead_of_agrees (hfd : fd.info = some (some f)) {fuel : ℕ} :
    ∀ {ino : Inode} {pos count : ℕ} (acc : List Byte), count ≤ fuel → Agrees E k ino →
      (∀ off, pos ≤ off → off < pos + count → Unlocked ino (pageIndex off)) →
      ∃ bytes ino',
        genericFileRead E (some k) fd (fun i => .succeed (scratch i)) stale fuel ino pos
          count acc = .ok ((acc ++ bytes).length, acc ++ bytes, ino') ∧
        bytes.length = min count (ino.iSize - pos) ∧
        (∀ j < bytes.length, bytes[j]? = fileByte E k ino.lower (pos + j)) ∧
        Agrees E k ino' ∧ ino'.lower = ino.lower ∧ ino'.iSize = ino.iSize := by
  induction fuel with
  | zero =>
      intro ino pos count acc hfuel hagree _
      refine ⟨[], ino, ?_, ?_, ?_, hagree, rfl, rfl⟩
      · simp only [genericFileRead, List.append_nil]
      · simp only [List.length_nil]
        omega
      · intro j hj
        cases hj
  | succ fuel ih =>
      intro ino pos count acc hfuel hagree hfree
      by_cases hcount : count = 0
      · refine ⟨[], ino, ?_, ?_, ?_, hagree, rfl, rfl⟩
        · simp only [genericFileRead, hcount, if_true, List.append_nil]
        · simp only [List.length_nil]
          omega
        · intro j hj
          cases hj
      · obtain ⟨ino₁, hread, hkeep, hagree₁, hlower, hsize⟩ :=
          readCachePage_of_agrees hfd hagree (hfree pos le_rfl (by omega))
            (scratch (pageIndex pos)) (stale (pageIndex pos))
        generalize hshown : shownPage E k ino (pageIndex pos) (scratch (pageIndex pos)) = page
          at hread
        have hpage : ∀ i : Fin pageCacheSize, pageStart (pageIndex pos) + i.val < ino.iSize →
            fileByte E k ino.lower (pageStart (pageIndex pos) + i.val) = some (page i) := by
          rw [← hshown]
          exact fun i hi => fileByte_eq_shownPage hagree _ hi
        have hoff := pageOffset_lt pos
        by_cases hend : ino.iSize ≤ pos
        · have hnr : min (pageCacheSize - pageOffset pos) (ino₁.iSize - pos) = 0 := by omega
          refine ⟨[], ino₁, ?_, ?_, ?_, hagree₁, hlower, hsize⟩
          · simp only [genericFileRead, hcount, if_false, hread, hnr, if_true,
              List.append_nil]
          · simp only [List.length_nil]
            omega
          · intro j hj
            cases hj
        · -- one page's worth, then the rest by induction
          have hnr : ¬ min (pageCacheSize - pageOffset pos) (ino₁.iSize - pos) = 0 := by omega
          obtain ⟨n, hn⟩ : ∃ n,
              n = min (min (pageCacheSize - pageOffset pos) (ino₁.iSize - pos)) count :=
            ⟨_, rfl⟩
          have hfree₁ : ∀ off, pos + n ≤ off → off < pos + n + (count - n) →
              Unlocked ino₁ (pageIndex off) :=
            fun off h₁ h₂ => hkeep _ (hfree off (by omega) (by omega))
          obtain ⟨bytes, ino', hrest, hlen, hbytes, hagree', hlower', hsize'⟩ :=
            ih (acc ++ pageBytes page (pageOffset pos) n) (by omega) hagree₁ hfree₁
          refine ⟨pageBytes page (pageOffset pos) n ++ bytes, ino', ?_, ?_, ?_, hagree',
            hlower'.trans hlower, hsize'.trans hsize⟩
          · simp only [genericFileRead, hcount, if_false, hread, hnr, ← hn, hrest,
              List.append_assoc]
          · rw [List.length_append, length_pageBytes, hlen]
            omega
          · intro j hj
            rcases Nat.lt_or_ge j n with hlt | hge
            · rw [List.getElem?_append_left (by rwa [length_pageBytes])]
              exact fileByte_pageBytes hpage (by omega) (by omega) hlt
            · rw [List.getElem?_append_right (by rwa [length_pageBytes]), length_pageBytes]
              rw [List.length_append, length_pageBytes] at hj
              rw [hbytes (j - n) (by omega), hlower]
              congr 1
              omega

end Reading

/-- A page that is cached but not uptodate, or not cached, is not served without a
key: `wrapfs_readpage` returns `-EPERM` and leaves the page locked. -/
theorem readCachePage_none (E : BlockCipher) (fd : OpenFile) (c : ReadpageCalls)
    (stale : Page) {ino : Inode} {index : ℕ} (hfree : Unlocked ino index)
    (hstale : ∀ page, ino.pages index = some page → page.uptodate = false) :
    ∃ p, p.uptodate = false ∧
      readCachePage E none fd c stale ino index =
        .ok (.error Errno.EPERM.ret, ino.setPage index p) := by
  have hne := Errno.EPERM.ret_ne_zero
  cases hpage : ino.pages index with
  | none =>
      refine ⟨⟨stale, false, true, 0⟩, rfl, ?_⟩
      simp only [readCachePage, hpage, vfsReadpage, lockPage, wrapfsReadpage, ne_eq, hne,
        not_false_eq_true, if_true]
  | some page =>
      refine ⟨{ page with locked := true }, hstale page hpage, ?_⟩
      simp only [readCachePage, hpage, hstale page hpage, hfree page hpage, vfsReadpage,
        lockPage, wrapfsReadpage, ne_eq, hne, not_false_eq_true, if_true, if_false,
        Bool.false_eq_true]

end Wrapfs
