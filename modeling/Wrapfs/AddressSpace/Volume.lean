import Wrapfs.AddressSpace.AlignedUse
import Wrapfs.AddressSpace.Gaps
import Wrapfs.Ioctl

/-!
# A file over many mounts

What does a user get who keeps a file on an encrypted mount for longer than one mount lasts?  The
key is nowhere but in the super block, so after every mount the `user` program has to be run again
(`user.c`, `WRAPFS_SETEKEY`); the file is closed, synced, truncated and written anew; the machine
may go down.  This module puts the modelled operations together into one machine for one file,
`volumeCall`, and compares it with a file that is a list of bytes and knows nothing of keys, pages
or mounts, `plainCall`.

## The use that is safe

`Disciplined` says it in terms of the plain file alone: reads and writes only while the passphrase
is set; writes that start on a page boundary, leave no gap, and end on a page boundary or at least
at the end of the file; sizes only set to shrink; and no crash while something is not synced.
Under it, `encrypted_file_refines_plain` says, every call returns what the plain file returns,
over any number of mounts, crashes and evictions.

Each clause answers a module of this development.  Writes start on a page boundary because of
`Wrapfs.AddressSpace.Durability`, and cover what is in their last page because an evicted page is
not read in again (`Wrapfs.AddressSpace.PageWrite`); there are no gaps because of
`Wrapfs.AddressSpace.Gaps`.  The condition is on the plain file and not on the page cache, so that
a user can keep to it without knowing what is cached.

## The lower file system in a crash

A successful lower `fsync` puts the lower file on disk.  What a crash makes of later changes is
not assumed: `crash lost` may leave any bytes `lost` then.

## The wrong passphrase

Nothing on the mount says which passphrase a file was stored under.  To a user with another one
the file is a plain file with other content (`wrong_passphrase_refines_masked`), the original
masked with the two keystreams: no read and no write is refused, and what is written then is
stored under the new key.
-/

namespace Wrapfs

open CounterMode Ledger ByteStore Runs

/-! ## `wrapfs_fsync` -/

/-- `wrapfs_fsync(file, 0, LLONG_MAX, datasync)`: `generic_file_fsync` writes back the dirty pages
and the inode, `metadata` being what the latter answers; then comes the lower `vfs_fsync_range`.
The second component is whether that has succeeded. -/
def wrapfsFsync (c : WritepageCalls) (metadata lowerFsync : Option Errno) (file : OpenFile)
    (ino : Inode) : Except Fault (ℤ × Bool × Inode) :=
  match writeCachePages c ino.dirty ino with
  | .error fault => .error fault
  | .ok (err, ino') =>
      if err ≠ 0 then .ok (err, false, ino')
      else
        match metadata with
        | some e => .ok (e.ret, false, ino')
        | none =>
            match file.info with
            | none => .error .badPointer
            | some none => .error .badPointer
            | some (some _) =>
                match lowerFsync with
                | some e => .ok (e.ret, false, ino')
                | none => .ok (0, true, ino')

/-- What `fsync` returns when writing the pages back succeeds. -/
def fsyncErr (metadata lowerFsync : Option Errno) : Option Errno := metadata.orElse fun _ => lowerFsync

/-- Return 0 or the error. -/
def retOf : Option Errno → ℤ
  | none => 0
  | some e => e.ret

section Kept

variable {E : BlockCipher} {k : Key} {ino : Inode} {content : List Byte}

theorem AtRest.withDirty (hrest : AtRest ino) {d : List ℕ} (hsub : d ⊆ ino.dirty) :
    AtRest { ino with dirty := d } :=
  ⟨hrest.unlocked, fun index hmem => hrest.dirty_uptodate index (hsub hmem), hrest.lowerInode⟩

/-- Dirty tags do not matter to the file. -/
theorem Holds.withDirty (hholds : Holds E k ino content) (d : List ℕ) :
    Holds E k { ino with dirty := d } content :=
  ⟨hholds.iSize, hholds.lowerSize, hholds.lower, hholds.cached⟩

/-- At rest `wrapfs_fsync` stores nothing of its own: it passes the request on. -/
theorem wrapfsFsync_eq (c : WritepageCalls) (metadata lowerFsync : Option Errno)
    (hrest : AtRest ino) :
    ∃ d ⊆ ino.dirty, wrapfsFsync c metadata lowerFsync .plain ino =
      .ok (retOf (fsyncErr metadata lowerFsync), (fsyncErr metadata lowerFsync).isNone,
        { ino with dirty := d }) := by
  obtain ⟨d, hsub, hd⟩ := writeCachePages_eq c (fun index _ => hrest.unlocked index)
    hrest.dirty_uptodate hrest.lowerInode
  refine ⟨d, hsub, ?_⟩
  cases metadata with
  | some e => simp only [wrapfsFsync, hd, ne_eq, not_true, if_false]; rfl
  | none =>
      cases lowerFsync with
      | some e => simp only [wrapfsFsync, hd, ne_eq, not_true, if_false, OpenFile.plain_info]; rfl
      | none => simp only [wrapfsFsync, hd, ne_eq, not_true, if_false, OpenFile.plain_info]; rfl

/-! ## Truncation -/

/-- A file that is cut off. -/
theorem fileByte_take {lower : List Byte} (size off : ℕ) :
    fileByte E k (lower.take size) off = if off < size then fileByte E k lower off else none := by
  unfold fileByte
  rw [List.getElem?_take]
  split <;> rfl

/-- A smaller size cuts the lower file off. -/
theorem sizedInode_lower_of_le {size : ℕ} (hle : size ≤ ino.lower.length) :
    (sizedInode ino size).lower = ino.lower.take size := by
  have hnone : size - ino.lower.length = 0 := by omega
  show ino.lower.take size ++ List.replicate (size - ino.lower.length) 0 = _
  rw [hnone, List.replicate_zero, List.append_nil]

/-- A page cached after its file has been shortened was cached before, and shows the same bytes
below the new end. -/
theorem sizedInode_pages {size index : ℕ} {page : CachePage}
    (hpage : (sizedInode ino size).pages index = some page) :
    ∃ page₀, ino.pages index = some page₀ ∧ page.uptodate = page₀.uptodate ∧
      page.locked = page₀.locked ∧
      ∀ i : Fin pageCacheSize, pageStart index + i.val < size → page.data i = page₀.data i := by
  simp only [sizedInode, truncateSetsize] at hpage
  split at hpage
  · cases hpage
  · obtain ⟨page₀, hpage₀, rfl⟩ := Option.map_eq_some_iff.mp hpage
    refine ⟨page₀, hpage₀, rfl, rfl, fun i hi => ?_⟩
    show zeroUserSegment page₀.data (size - pageStart index) pageCacheSize i = page₀.data i
    rw [zeroUserSegment, if_neg]
    omega

/-- Truncation leaves the inode at rest. -/
theorem AtRest.sized (hrest : AtRest ino) (size : ℕ) : AtRest (sizedInode ino size) := by
  refine ⟨unlocked_sizedInode hrest.unlocked, fun index hmem page hpage => ?_, hrest.lowerInode⟩
  obtain ⟨page₀, hpage₀, hup, -⟩ := sizedInode_pages hpage
  rw [hup]
  exact hrest.dirty_uptodate index (List.mem_of_mem_filter hmem) page₀ hpage₀

/-- **Shortening a file keeps it.** -/
theorem Holds.sized (hholds : Holds E k ino content) {size : ℕ} (hle : size ≤ content.length) :
    Holds E k (sizedInode ino size) (content.take size) := by
  obtain ⟨hagree, hbyte⟩ := holds_iff.mp hholds
  have hlen : size ≤ ino.lower.length := by rwa [hholds.lowerSize]
  have hlower := sizedInode_lower_of_le hlen
  refine holds_iff.mpr ⟨⟨?_, fun index page hpage hup i hlt => ?_⟩, fun off => ?_⟩
  · rw [hlower, List.length_take_of_le hlen]
    rfl
  · have hsize : pageStart index + i.val < size := hlt
    obtain ⟨page₀, hpage₀, hup₀, -, hdata⟩ := sizedInode_pages hpage
    rw [hlower, fileByte_take, if_pos hsize, hdata i hsize]
    refine hagree.bytes index page₀ hpage₀ (hup₀ ▸ hup) i ?_
    rw [hholds.iSize]
    omega
  · rw [hlower, fileByte_take, hbyte, List.getElem?_take]

/-! ## Whole writes -/

/-- A write that starts on a page boundary inside the file or at its end, and ends on one or at
least at the end of the file. -/
structure RecordWrite (size pos : ℕ) (data : List Byte) : Prop where
  aligned : pageOffset pos = 0
  pos_le : pos ≤ size
  covers : size ≤ pos + data.length ∨ pageOffset (pos + data.length) = 0

/-- The first piece of such a write is an aligned one. -/
theorem RecordWrite.firstPiece {pos n : ℕ} {data : List Byte}
    (hrec : RecordWrite ino.iSize pos data) (hne : data ≠ [])
    (hn : n = min (pageCacheSize - pageOffset pos) data.length) (stale scratch : Page) :
    AlignedWrite ino ⟨⟨pos, n, data.take n⟩, stale, scratch⟩ := by
  obtain ⟨haligned, hle, hcovers⟩ := hrec
  have hpos : 0 < data.length := List.length_pos_iff.mpr hne
  rw [haligned] at hn
  refine ⟨⟨⟨?_, ?_⟩, hle⟩, haligned, Or.inr fun off hoff hindex => ?_⟩
  · show pageOffset pos + n ≤ pageCacheSize
    omega
  · show (data.take n).length = n
    rw [List.length_take]
    omega
  · show off < pos + n
    obtain ⟨-, hhi⟩ := (pageIndex_eq_iff off (pageIndex pos)).mp hindex
    have hstart := pageStart_add_pageOffset pos
    rcases Nat.lt_or_ge data.length pageCacheSize with hshort | hlong
    · -- the write ends inside the page, so it ends the file
      rcases hcovers with hend | hend
      · omega
      · have hmod : (pos + data.length) % pageCacheSize = data.length := by
          have hzero : pos % pageCacheSize = 0 := haligned
          rw [Nat.add_mod, hzero, Nat.zero_add, Nat.mod_mod, Nat.mod_eq_of_lt hshort]
        have hzero : (pos + data.length) % pageCacheSize = 0 := hend
        omega
    · omega

/-- After a first piece that is not the last, what is left is such a write again. -/
theorem RecordWrite.rest {size pos n : ℕ} {data : List Byte} (hrec : RecordWrite size pos data)
    (hn : n = min (pageCacheSize - pageOffset pos) data.length) (hmore : n < data.length) :
    RecordWrite (max size (pos + n)) (pos + n) (data.drop n) := by
  obtain ⟨haligned, hle, hcovers⟩ := hrec
  rw [haligned] at hn
  have hpage : n = pageCacheSize := by omega
  have hend : pos + n + (data.drop n).length = pos + data.length := by
    rw [List.length_drop]
    omega
  refine ⟨?_, le_max_right _ _, ?_⟩
  · rw [hpage, pageOffset, Nat.add_mod_right]
    exact haligned
  · rw [hend]
    rcases hcovers with hcov | hcov
    · left
      omega
    · exact Or.inr hcov

/-- **A whole write.**  The loop over the pieces reports every byte and leaves the plain write. -/
theorem genericPerformWrite_holds {fuel : ℕ} :
    ∀ {pos : ℕ} {data : List Byte} {ino : Inode} {content : List Byte} {pages : List (Page × Page)}
      (written : ℕ), data.length ≤ fuel → AtRest ino → Holds E k ino content →
      RecordWrite content.length pos data → (chunksFrom fuel pos data).length ≤ pages.length →
      ∃ ino', genericPerformWrite E (some k) .plain (pages.map fun p => .succeed p.1 p.2) ino written
          (chunksFrom fuel pos data) = .ok (((written + data.length : ℕ) : ℤ), ino') ∧
        AtRest ino' ∧ Holds E k ino' (pwrite 0 content pos data) := by
  induction fuel with
  | zero =>
      intro pos data ino content pages written hfuel hrest hholds _ _
      obtain rfl := List.length_eq_zero_iff.mp (Nat.le_zero.mp hfuel)
      exact ⟨ino, by cases pages <;> rfl, hrest, hholds⟩
  | succ fuel ih =>
      intro pos data ino content pages written hfuel hrest hholds hrec hpages
      by_cases hne : data = []
      · subst hne
        exact ⟨ino, by cases pages <;> rfl, hrest, hholds⟩
      · have hempty : data.isEmpty = false := by simpa using hne
        have hpos : 0 < data.length := List.length_pos_iff.mpr hne
        obtain ⟨n, hn⟩ : ∃ n, n = min (pageCacheSize - pageOffset pos) data.length := ⟨_, rfl⟩
        have hchunks : chunksFrom (fuel + 1) pos data =
            ⟨pos, n, data.take n⟩ :: chunksFrom fuel (pos + n) (data.drop n) := by
          rw [chunksFrom, hempty, if_neg Bool.false_ne_true, hn]
        rw [hchunks] at hpages ⊢
        obtain ⟨p, pages, rfl⟩ : ∃ p rest, pages = p :: rest := by
          cases pages with
          | nil => exact absurd hpages (Nat.not_succ_le_zero _)
          | cons p rest => exact ⟨p, rest, rfl⟩
        -- the first piece, as the loop and as the step of an aligned run
        have ha := RecordWrite.firstPiece (hholds.iSize ▸ hrec) hne hn p.1 p.2
        obtain ⟨refs, hwrite⟩ := performWrite_eq E k p.1 p.2 ha.inPage (hrest.unlocked _)
        obtain ⟨ino₁, hstep, hrest₁, hholds₁⟩ := pageStep_holds (a := .write _) hrest hholds ha
        have hino₁ : ino₁ = Wrapfs.written E k ino ⟨pos, n, data.take n⟩ refs := by
          simp only [pageStep, writeStep, hwrite] at hstep
          exact (Except.ok.inj hstep).symm
        have hoff := pageOffset_lt pos
        have hn0 : 0 < n := by omega
        have hneg : ¬ (n : ℤ) < 0 := by omega
        have hzero : ¬ (n : ℤ) = 0 := by omega
        have htake : (data.take n).length = n := by
          rw [List.length_take]
          omega
        have hsplit : pwrite 0 content pos data =
            pwrite 0 (pwrite 0 content pos (data.take n)) (pos + n) (data.drop n) := by
          have hjoin := pwrite_pwrite 0 hrec.pos_le (data.take n) (data.drop n)
          rw [htake, List.take_append_drop] at hjoin
          exact hjoin.symm
        have hloop : ∀ {ret : ℤ} {ino' : Inode},
            genericPerformWrite E (some k) .plain (pages.map fun p => .succeed p.1 p.2) ino₁
              (written + n) (chunksFrom fuel (pos + n) (data.drop n)) = .ok (ret, ino') →
            genericPerformWrite E (some k) .plain ((p :: pages).map fun p => .succeed p.1 p.2) ino
              written (⟨pos, n, data.take n⟩ :: chunksFrom fuel (pos + n) (data.drop n)) =
                .ok (ret, ino') := by
          intro ret ino' h
          rw [hino₁] at h
          simp only [List.map_cons, genericPerformWrite, hwrite, hneg, hzero, if_false,
            Int.toNat_natCast, h]
        rcases Nat.lt_or_ge n data.length with hmore | hlast
        · have hlen : (pwrite 0 content pos (data.take n)).length = max content.length (pos + n) := by
            rw [length_pwrite 0 _ _ (List.ne_nil_of_length_pos (by rwa [htake])), htake]
          have hrec' := hrec.rest hn hmore
          rw [← hlen] at hrec'
          obtain ⟨ino', hrun, hrest', hholds'⟩ := ih (written + n)
            (by rw [List.length_drop]; omega) hrest₁ hholds₁ hrec'
            (Nat.le_of_succ_le_succ hpages)
          refine ⟨ino', ?_, hrest', hsplit ▸ hholds'⟩
          have hsum : written + n + (data.drop n).length = written + data.length := by
            rw [List.length_drop]
            omega
          rw [hsum] at hrun
          exact hloop hrun
        · -- the last piece: nothing is left
          have hdrop : data.drop n = [] := List.drop_eq_nil_of_le hlast
          have hnone : chunksFrom fuel (pos + n) [] = [] := by cases fuel <;> rfl
          have hnlen : n = data.length := by omega
          refine ⟨ino₁, hloop ?_, hrest₁, ?_⟩
          · rw [hdrop, hnone, ← hnlen]
            cases pages <;> rfl
          · rw [hsplit, hdrop, pwrite_nil]
            exact hholds₁

/-! ## Whole reads -/

/-- A read leaves the file at rest. -/
theorem genericFileRead_atRest {scratch stale : ℕ → Page} {fuel : ℕ} :
    ∀ {ino ino' : Inode} {pos count : ℕ} {acc bytes : List Byte} {ret : ℤ}, AtRest ino →
      genericFileRead E (some k) .plain (fun i => .succeed (scratch i)) stale fuel ino pos count
        acc = .ok (ret, bytes, ino') → AtRest ino' := by
  induction fuel with
  | zero =>
      intro ino ino' pos count acc bytes ret hrest h
      cases h
      exact hrest
  | succ fuel ih =>
      intro ino ino' pos count acc bytes ret hrest h
      obtain ⟨ino₁, hread, hino₁⟩ := readCachePage_eq (E := E) (k := k) OpenFile.plain_info
        (hrest.unlocked (pageIndex pos)) (scratch (pageIndex pos)) (stale (pageIndex pos))
      have hrest₁ : AtRest ino₁ := by
        rcases hino₁ with rfl | ⟨refs, rfl⟩
        · exact hrest
        · exact hrest.setPage rfl rfl
      simp only [genericFileRead, hread] at h
      split_ifs at h
      · cases h
        exact hrest
      · cases h
        exact hrest₁
      · exact ih hrest₁ h

/-- **A whole read** returns what the plain file has there. -/
theorem readFile_holds (hrest : AtRest ino) (hholds : Holds E k ino content) (pos count : ℕ)
    (scratch stale : ℕ → Page) :
    ∃ ino', readFile E (some k) .plain (fun i => .succeed (scratch i)) stale ino pos count =
        .ok ((pread content pos count).length, pread content pos count, ino') ∧
      AtRest ino' ∧ Holds E k ino' content := by
  obtain ⟨hagree, hbyte⟩ := holds_iff.mp hholds
  obtain ⟨bytes, ino', hread, hlen, hbytes, hagree', hlower, -⟩ : ∃ bytes ino',
      readFile E (some k) .plain (fun i => .succeed (scratch i)) stale ino pos count =
        .ok (bytes.length, bytes, ino') ∧ bytes.length = min count (ino.iSize - pos) ∧
      (∀ j < bytes.length, bytes[j]? = fileByte E k ino.lower (pos + j)) ∧
      Agrees E k ino' ∧ ino'.lower = ino.lower ∧ ino'.iSize = ino.iSize :=
    genericFileRead_of_agrees OpenFile.plain_info [] le_rfl hagree
      fun off _ _ => hrest.unlocked (pageIndex off)
  have hsize := hholds.iSize
  have hdata : bytes = pread content pos count := by
    ext1 j
    rw [getElem?_pread]
    rcases Nat.lt_or_ge j bytes.length with hj | hj
    · rw [hbytes j hj, hbyte, if_pos (by omega)]
    · rw [List.getElem?_eq_none hj]
      split
      · rw [List.getElem?_eq_none (by omega)]
      · rfl
  subst hdata
  refine ⟨ino', hread, genericFileRead_atRest hrest hread, holds_iff.mpr ⟨hagree', fun off => ?_⟩⟩
  rw [hlower, hbyte]

/-- An inode just looked up is at rest. -/
theorem atRest_fresh (lower : List Byte) : AtRest (.fresh lower) := by
  refine ⟨fun index page hpage => ?_, fun index hmem => ?_, rfl⟩
  · cases hpage
  · cases hmem

/-- A file looked up again holds what its lower file holds. -/
theorem Holds.fresh (hholds : Holds E k ino content) : Holds E k (.fresh ino.lower) content := by
  refine ⟨hholds.lowerSize, hholds.lowerSize, hholds.lower, fun index page hpage => ?_⟩
  cases hpage

end Kept

/-! ## The machine -/

/-- One file on an encrypted mount: the inode, the mount's key, and whether the lower file is on
disk as it is. -/
structure Volume where
  ino : Inode
  key : Option Key
  synced : Bool

/-- A file found on disk, after the mount: `wrapfs_mount` sets no key. -/
def Volume.mounted (lower : List Byte) : Volume := ⟨.fresh lower, none, true⟩

/-- What happens to the file, with the answers the calls below get. -/
inductive VolumeCall where
  /-- the program `user` is run on the file with this key string -/
  | user (str : List Byte) (c : IoctlCalls) (stale : ℕ → Byte)
  | read (pos count : ℕ) (scratch stale : ℕ → Page)
  /-- a write, with the pages allocated for its pieces -/
  | write (pos : ℕ) (data : List Byte) (pages : List (Page × Page))
  | setattr (ia : Iattr) (changeOk newsizeOk : Option Errno)
  | fsync (c : WritepageCalls) (metadata lowerFsync : Option Errno)
  | flush (c : WritepageCalls) (lowerFlush : Option ℤ)
  | evict (index : ℕ)
  /-- unmount and mount again -/
  | remount
  /-- the machine goes down; changes that were not synced may come to anything -/
  | crash (lost : List Byte)

/-- `main` of `user.c` on a file that can be opened: the ioctl, with the length of the string. -/
def userMain (md5 : List Byte → Key) (c : IoctlCalls) (str : List Byte) (stale : ℕ → Byte)
    (key : Option Key) : Except Fault IoctlResult :=
  setekey md5 c str stale key str.length

/-- `wrapfs_setattr` on the file, with the dirty tags that truncation takes along. -/
def setattrFile (ia : Iattr) (changeOk newsizeOk : Option Errno) (ino : Inode) : ℤ × Inode :=
  let r := wrapfsSetattr byteListFs changeOk newsizeOk ia ⟨ino.iSize, ino.pages⟩ ino.lower
  (r.1, { ino with
    lower := r.2.2
    iSize := r.2.1.iSize
    pages := r.2.1.pages
    dirty := ino.dirty.filter fun index => (r.2.1.pages index).isSome })

/-- One call. -/
def volumeCall (E : BlockCipher) (md5 : List Byte → Key) (v : Volume) :
    VolumeCall → Except Fault (CallAnswer × Volume)
  | .user str c stale =>
      match userMain md5 c str stale v.key with
      | .error fault => .error fault
      | .ok r => .ok (⟨r.ret, []⟩, { v with key := r.key })
  | .read pos count scratch stale =>
      match readFile E v.key .plain (fun i => .succeed (scratch i)) stale v.ino pos count with
      | .error fault => .error fault
      | .ok (ret, bytes, ino) => .ok (⟨ret, bytes⟩, { v with ino := ino })
  | .write pos data pages =>
      match genericPerformWrite E v.key .plain (pages.map fun p => .succeed p.1 p.2) v.ino 0
          (writeChunks pos data) with
      | .error fault => .error fault
      | .ok (ret, ino) => .ok (⟨ret, []⟩, { v with ino := ino, synced := false })
  | .setattr ia changeOk newsizeOk =>
      let r := setattrFile ia changeOk newsizeOk v.ino
      .ok (⟨r.1, []⟩, { v with ino := r.2, synced := false })
  | .fsync c metadata lowerFsync =>
      match wrapfsFsync c metadata lowerFsync .plain v.ino with
      | .error fault => .error fault
      | .ok (ret, done, ino) => .ok (⟨ret, []⟩, { v with ino := ino, synced := v.synced || done })
  | .flush c lowerFlush =>
      match wrapfsFlush c lowerFlush .plain v.ino with
      | .error fault => .error fault
      | .ok (ret, ino) => .ok (⟨ret, []⟩, { v with ino := ino })
  | .evict index => .ok (⟨0, []⟩, { v with ino := evictPage v.ino index })
  | .remount => .ok (⟨0, []⟩, ⟨.fresh v.ino.lower, none, v.synced⟩)
  | .crash lost => .ok (⟨0, []⟩, .mounted (if v.synced then v.ino.lower else lost))

/-! ## The plain file -/

/-- A file of bytes, with the key string set last, and whether it is on disk. -/
structure PlainFile where
  content : List Byte
  passphrase : Option (List Byte)
  synced : Bool

/-- What a size change does to a plain file. -/
def plainSetattr (ia : Iattr) (changeOk newsizeOk : Option Errno) (content : List Byte) :
    ℤ × List Byte :=
  match changeOk, ia.size, newsizeOk with
  | some e, _, _ => (e.ret, content)
  | none, none, _ => (0, content)
  | none, some _, some e => (e.ret, content)
  | none, some size, none => (0, content.take size)

/-- The same call on the plain file. -/
def plainCall (t : PlainFile) : VolumeCall → CallAnswer × PlainFile
  | .user str _ _ =>
      (⟨0, []⟩, { t with passphrase := if str = clearKeyString then none else some str })
  | .read pos count _ _ =>
      (⟨(pread t.content pos count).length, pread t.content pos count⟩, t)
  | .write pos data _ =>
      (⟨data.length, []⟩, { t with content := pwrite 0 t.content pos data, synced := false })
  | .setattr ia changeOk newsizeOk =>
      let r := plainSetattr ia changeOk newsizeOk t.content
      (⟨r.1, []⟩, { t with content := r.2, synced := false })
  | .fsync _ metadata lowerFsync =>
      (⟨retOf (fsyncErr metadata lowerFsync), []⟩,
        { t with synced := t.synced || (fsyncErr metadata lowerFsync).isNone })
  | .flush _ lowerFlush => (⟨lowerFlush.getD 0, []⟩, t)
  | .evict _ => (⟨0, []⟩, t)
  | .remount => (⟨0, []⟩, { t with passphrase := none })
  | .crash _ => (⟨0, []⟩, ⟨t.content, none, true⟩)

/-- Every call of the ioctl succeeds for a string of this length. -/
structure IoctlSucceeds (c : IoctlCalls) (str : List Byte) : Prop where
  reaches : ReachesString c str.length
  hash : c.hash.alloc ∧ c.hash.init ∧ c.hash.update ∧ c.hash.final
  digest : c.md5Digest = true

/-- The safe use of a file whose passphrase is `pass`. -/
def Disciplined (pass : List Byte) (t : PlainFile) : VolumeCall → Prop
  | .user str c _ => IoctlSucceeds c str
  | .read _ _ _ _ => t.passphrase = some pass
  | .write pos data pages => t.passphrase = some pass ∧ RecordWrite t.content.length pos data ∧
      (writeChunks pos data).length ≤ pages.length
  | .setattr ia _ _ => ∀ size, ia.size = some size → size ≤ t.content.length
  | .crash _ => t.synced = true
  | _ => True

/-! ## Refinement -/

/-- The encrypted file is the plain file under the key of the passphrase, and the key set is that
of the key string set. -/
structure Stores (E : BlockCipher) (md5 : List Byte → Key) (pass : List Byte) (v : Volume)
    (t : PlainFile) : Prop where
  rest : AtRest v.ino
  holds : Holds E (md5 pass) v.ino t.content
  key : v.key = t.passphrase.map md5
  synced : v.synced = t.synced

section Refinement

variable {E : BlockCipher} {md5 : List Byte → Key} {pass : List Byte} {v : Volume} {t : PlainFile}

variable (md5) in
/-- The program stores the hash of its argument, or clears the key. -/
theorem userMain_of_succeeds {c : IoctlCalls} {str : List Byte} (h : IoctlSucceeds c str)
    (stale : ℕ → Byte) (key : Option Key) :
    ∃ r, userMain md5 c str stale key = .ok r ∧ r.ret = 0 ∧
      r.key = (if str = clearKeyString then none else some str).map md5 := by
  by_cases hclear : str = clearKeyString
  · subst hclear
    obtain ⟨r, hr, hret, hkey⟩ : ∃ r, userMain md5 c clearKeyString stale key = .ok r ∧
        r.ret = 0 ∧ r.key = none := setekey_clear h.reaches
    exact ⟨r, hr, hret, by rw [hkey, if_pos rfl, Option.map_none]⟩
  · obtain ⟨r, hr, hend⟩ : ∃ r, userMain md5 c str stale key = .ok r ∧ if c.md5Digest then
        r.ret = 0 ∧ r.key = some (md5 ((GetnameBuf.mk str stale).bytes (str.length : ℤ).toNat))
        else r.ret < 0 ∧ r.key = key :=
      setekey_hashed h.reaches hclear h.hash (Int.natCast_nonneg _)
    rw [if_pos h.digest, GetnameBuf.bytes_of_le (by omega), Int.toNat_natCast,
      List.take_left' rfl] at hend
    exact ⟨r, hr, hend.1, by rw [hend.2, if_neg hclear, Option.map_some]⟩

/-- A size change that only shortens the file is the plain one. -/
theorem Stores.setattr (h : Stores E md5 pass v t) {ia : Iattr} (changeOk newsizeOk : Option Errno)
    (hshrink : ∀ size, ia.size = some size → size ≤ t.content.length) :
    (setattrFile ia changeOk newsizeOk v.ino).1 =
        (plainSetattr ia changeOk newsizeOk t.content).1 ∧
      AtRest (setattrFile ia changeOk newsizeOk v.ino).2 ∧
      Holds E (md5 pass) (setattrFile ia changeOk newsizeOk v.ino).2
        (plainSetattr ia changeOk newsizeOk t.content).2 := by
  -- without a new size only dirty tags of pages that are not cached are dropped
  have hkept : AtRest { v.ino with
      dirty := v.ino.dirty.filter fun index => (v.ino.pages index).isSome } ∧
      Holds E (md5 pass) { v.ino with
        dirty := v.ino.dirty.filter fun index => (v.ino.pages index).isSome } t.content :=
    ⟨h.rest.withDirty fun _ => List.mem_of_mem_filter, h.holds.withDirty _⟩
  cases changeOk with
  | some e => exact ⟨rfl, hkept⟩
  | none =>
      cases hsize : ia.size with
      | none =>
          simp only [setattrFile, wrapfsSetattr, plainSetattr, hsize, byteListFs, lowerIattr_size]
          exact ⟨trivial, hkept⟩
      | some size =>
          cases newsizeOk with
          | some e =>
              simp only [setattrFile, wrapfsSetattr, plainSetattr, hsize]
              exact ⟨trivial, hkept⟩
          | none =>
              have hfile : setattrFile ia none none v.ino = (0, sizedInode v.ino size) := by
                simp only [setattrFile, wrapfsSetattr, hsize, byteListFs, lowerIattr_size]
                rfl
              simp only [hfile, plainSetattr, hsize]
              exact ⟨trivial, h.rest.sized size, h.holds.sized (hshrink size hsize)⟩

/-- **One call.** -/
theorem Stores.call (h : Stores E md5 pass v t) {a : VolumeCall} (ha : Disciplined pass t a) :
    ∃ v', volumeCall E md5 v a = .ok ((plainCall t a).1, v') ∧
      Stores E md5 pass v' (plainCall t a).2 := by
  obtain ⟨hrest, hholds, hkey, hsynced⟩ := h
  cases a with
  | user str c stale =>
      obtain ⟨r, hr, hret, hkey'⟩ := userMain_of_succeeds md5 ha stale v.key
      refine ⟨{ v with key := r.key }, ?_, hrest, hholds, hkey', hsynced⟩
      simp only [volumeCall, hr, hret, plainCall]
  | read pos count scratch stale =>
      have hpass : v.key = some (md5 pass) := by rw [hkey, ha, Option.map_some]
      obtain ⟨ino', hread, hrest', hholds'⟩ := readFile_holds hrest hholds pos count scratch stale
      refine ⟨{ v with ino := ino' }, ?_, hrest', hholds', hkey, hsynced⟩
      simp only [volumeCall, hpass, hread, plainCall]
  | write pos data pages =>
      obtain ⟨hset, hrec, hpages⟩ := ha
      have hpass : v.key = some (md5 pass) := by rw [hkey, hset, Option.map_some]
      obtain ⟨ino', hwrite, hrest', hholds'⟩ :=
        genericPerformWrite_holds 0 le_rfl hrest hholds hrec hpages
      rw [Nat.zero_add] at hwrite
      refine ⟨⟨ino', v.key, false⟩, ?_, hrest', hholds', hkey, rfl⟩
      simp only [volumeCall, hpass, writeChunks, hwrite, plainCall]
  | setattr ia changeOk newsizeOk =>
      obtain ⟨hret, hrest', hholds'⟩ :=
        Stores.setattr ⟨hrest, hholds, hkey, hsynced⟩ changeOk newsizeOk ha
      refine ⟨⟨(setattrFile ia changeOk newsizeOk v.ino).2, v.key, false⟩, ?_, hrest', hholds',
        hkey, rfl⟩
      simp only [volumeCall, plainCall, hret]
  | fsync c metadata lowerFsync =>
      obtain ⟨d, hsub, hsync⟩ := wrapfsFsync_eq c metadata lowerFsync hrest
      refine ⟨⟨{ v.ino with dirty := d }, v.key, v.synced || (fsyncErr metadata lowerFsync).isNone⟩,
        ?_, hrest.withDirty hsub, hholds.withDirty d, hkey, ?_⟩
      · simp only [volumeCall, hsync, plainCall]
      · rw [hsynced]
        rfl
  | flush c lowerFlush =>
      obtain ⟨d, hsub, hflush⟩ := wrapfsFlush_eq c lowerFlush hrest
      refine ⟨{ v with ino := { v.ino with dirty := d } }, ?_, hrest.withDirty hsub,
        hholds.withDirty d, hkey, hsynced⟩
      simp only [volumeCall, hflush, plainCall]
  | evict index =>
      obtain ⟨_, hstep, hrest', hholds'⟩ :=
        pageStep_holds (a := .evict index) hrest hholds trivial
      cases hstep
      exact ⟨_, rfl, hrest', hholds', hkey, hsynced⟩
  | remount => exact ⟨_, rfl, atRest_fresh _, hholds.fresh, rfl, hsynced⟩
  | crash lost =>
      -- the file is on disk, so it is what is found there
      have hdisk : v.synced = true := hsynced.trans ha
      refine ⟨.mounted v.ino.lower, ?_, atRest_fresh _, hholds.fresh, rfl, rfl⟩
      simp only [volumeCall, hdisk, if_true, plainCall]

/-- **Whole runs.** -/
theorem Stores.replies (h : Stores E md5 pass v t) {calls : List VolumeCall}
    (hcalls : AnswersAlong plainCall (Disciplined pass) t calls) :
    ∃ v', Runs.replies (volumeCall E md5) v calls = .ok ((answers plainCall t calls).1, v') ∧
      Stores E md5 pass v' (answers plainCall t calls).2 := by
  have hone : ∀ v t a, Stores E md5 pass v t → Disciplined pass t a →
      ∃ v', volumeCall E md5 v a = .ok ((plainCall t a).1, v') ∧
        Stores E md5 pass v' (plainCall t a).2 := fun _ _ _ h ha => h.call ha
  exact replies_refine hone h hcalls

/-- A file that is stored encrypted under the key of the passphrase. -/
theorem stores_mounted (E : BlockCipher) (md5 : List Byte → Key) (pass content : List Byte) :
    Stores E md5 pass (.mounted (pageCiphertext E (md5 pass) content)) ⟨content, none, true⟩ := by
  have hlen : (pageCiphertext E (md5 pass) content).length = content.length := by
    rw [pageCiphertext, List.length_mapIdx]
  refine ⟨atRest_fresh _, ⟨hlen, hlen, rfl, fun index page hpage => ?_⟩, rfl, rfl⟩
  cases hpage

end Refinement

/-- **An encrypted file is a plain file to a disciplined user.**  Take any content that is stored,
encrypted under the key of a passphrase, and any sequence of calls, mounts, key changes, evictions
and crashes that is disciplined as the plain file sees it.  Then every call returns, with the
answer the plain file gives, and what the lower file holds in the end is the encryption of the
plain file's content. -/
theorem encrypted_file_refines_plain (E : BlockCipher) (md5 : List Byte → Key)
    (pass content : List Byte) (calls : List VolumeCall)
    (hcalls : AnswersAlong plainCall (Disciplined pass) ⟨content, none, true⟩ calls) :
    ∃ v, replies (volumeCall E md5) (.mounted (pageCiphertext E (md5 pass) content)) calls =
        .ok ((answers plainCall ⟨content, none, true⟩ calls).1, v) ∧
      v.ino.lower = pageCiphertext E (md5 pass)
        (answers plainCall ⟨content, none, true⟩ calls).2.content := by
  obtain ⟨v, hrun, hstores⟩ := (stores_mounted E md5 pass content).replies hcalls
  exact ⟨v, hrun, hstores.holds.lower⟩

theorem ioctlSucceeds_keyCalls (b : Byte) : IoctlSucceeds (keyCalls true) [b] := by
  have hsize : keyValSizeOk 1 := by decide
  exact ⟨⟨rfl, rfl, rfl, rfl, rfl, hsize⟩, ⟨rfl, rfl, rfl, rfl⟩, rfl⟩

/-- A byte is written under the passphrase `"k"` and synced; after a crash and another run of the
`user` program it is read back. -/
theorem encrypted_file_refines_plain_crash :
    ∃ v, replies (volumeCall (constCipher 7) fun _ => zeroKey) (.mounted [])
        [.user [107] (keyCalls true) fun _ => 0, .write 0 [97] [(fun _ => 1, fun _ => 2)],
          .fsync ⟨true, false, 0⟩ none none, .crash [5, 5],
          .user [107] (keyCalls true) fun _ => 0, .read 0 8 (fun _ _ => 3) fun _ _ => 4] =
      .ok ([⟨0, []⟩, ⟨1, []⟩, ⟨0, []⟩, ⟨0, []⟩, ⟨0, []⟩, ⟨1, [97]⟩], v) := by
  obtain ⟨v, hrun, -⟩ := encrypted_file_refines_plain (constCipher 7) (fun _ => zeroKey) [107] []
    [.user [107] (keyCalls true) fun _ => 0, .write 0 [97] [(fun _ => 1, fun _ => 2)],
      .fsync ⟨true, false, 0⟩ none none, .crash [5, 5],
      .user [107] (keyCalls true) fun _ => 0, .read 0 8 (fun _ _ => 3) fun _ _ => 4]
    ⟨ioctlSucceeds_keyCalls 107, ⟨rfl, ⟨rfl, le_rfl, Or.inl (Nat.zero_le _)⟩, by decide⟩, trivial, rfl,
      ioctlSucceeds_keyCalls 107, rfl, trivial⟩
  exact ⟨v, hrun⟩

/-! ## The wrong passphrase -/

/-- What a file stored under `k` looks like under `k'`: every byte is masked with the two
keystreams at its in-page offset. -/
def maskedContent (E : BlockCipher) (k k' : Key) (content : List Byte) : List Byte :=
  content.mapIdx fun off b =>
    b ^^^ pageKeystream E k (pageOffset off) ^^^ pageKeystream E k' (pageOffset off)

/-- The lower file is the encryption of either. -/
theorem pageCiphertext_maskedContent (E : BlockCipher) (k k' : Key) (content : List Byte) :
    pageCiphertext E k' (maskedContent E k k' content) = pageCiphertext E k content := by
  unfold pageCiphertext maskedContent
  rw [List.mapIdx_mapIdx]
  congr 1
  funext off b
  show (b ^^^ pageKeystream E k _ ^^^ pageKeystream E k' _) ^^^ pageKeystream E k' _ = _
  rw [UInt8.xor_assoc, UInt8.xor_self, UInt8.xor_zero]
  rfl

/-- When another passphrase shows the same content. -/
theorem maskedContent_eq_iff (E : BlockCipher) (k k' : Key) (content : List Byte) :
    maskedContent E k k' content = content ↔
      ∀ off < content.length, pageKeystream E k (pageOffset off) =
        pageKeystream E k' (pageOffset off) := by
  have hbyte : ∀ (b x y : Byte), b ^^^ x ^^^ y = b ↔ x = y := by
    intro b x y
    rw [UInt8.xor_assoc]
    constructor
    · intro h
      have hzero : x ^^^ y = 0 := by
        have hx := congrArg (b ^^^ ·) h
        simpa [← UInt8.xor_assoc] using hx
      exact UInt8.xor_eq_zero_iff.mp hzero
    · rintro rfl
      rw [UInt8.xor_self, UInt8.xor_zero]
  rw [List.ext_getElem_iff]
  unfold maskedContent
  simp only [List.length_mapIdx, true_and, List.getElem_mapIdx, hbyte]
  exact ⟨fun h off hoff => h off hoff hoff, fun h off hoff _ => h off hoff⟩

/-- **A wrong passphrase is never refused.**  To a user with passphrase `pass'` a file stored under
`pass` is, in every call over every run, a plain file with other content: every read and every
write succeeds, and what is written is stored under the wrong key.  That content is the right one
only if the two keystreams are equal on the file. -/
theorem wrong_passphrase_refines_masked (E : BlockCipher) (md5 : List Byte → Key)
    (pass pass' content : List Byte) :
    (∀ calls, AnswersAlong plainCall (Disciplined pass')
        ⟨maskedContent E (md5 pass) (md5 pass') content, none, true⟩ calls →
      ∃ v, replies (volumeCall E md5) (.mounted (pageCiphertext E (md5 pass) content)) calls =
          .ok ((answers plainCall
            ⟨maskedContent E (md5 pass) (md5 pass') content, none, true⟩ calls).1, v) ∧
        v.ino.lower = pageCiphertext E (md5 pass') (answers plainCall
          ⟨maskedContent E (md5 pass) (md5 pass') content, none, true⟩ calls).2.content) ∧
    (maskedContent E (md5 pass) (md5 pass') content = content ↔
      ∀ off < content.length, pageKeystream E (md5 pass) (pageOffset off) =
        pageKeystream E (md5 pass') (pageOffset off)) := by
  refine ⟨fun calls hcalls => ?_, maskedContent_eq_iff E _ _ content⟩
  obtain ⟨v, hrun, hstores⟩ := (stores_mounted E md5 pass' _).replies hcalls
  rw [pageCiphertext_maskedContent] at hrun
  exact ⟨v, hrun, hstores.holds.lower⟩

/-- With a cipher whose keystream is the first byte of the key and a hash that is the first byte of
the string: `"a"`, stored under `"k"`, is read as another letter under `"j"`. -/
theorem wrong_passphrase_refines_masked_byte :
    ∃ v, replies (volumeCall (fun key _ _ => key ⟨0, by decide⟩) fun str _ => str.getD 0 0)
        (.mounted [10])
        [.user [106] (keyCalls true) fun _ => 0, .read 0 8 (fun _ _ => 3) fun _ _ => 4] =
      .ok ([⟨0, []⟩, ⟨1, [96]⟩], v) := by
  obtain ⟨v, hrun, -⟩ := (wrong_passphrase_refines_masked (fun key _ _ => key ⟨0, by decide⟩)
    (fun str _ => str.getD 0 0) [107] [106] [97]).1
    [.user [106] (keyCalls true) fun _ => 0, .read 0 8 (fun _ _ => 3) fun _ _ => 4]
    ⟨ioctlSucceeds_keyCalls 106, rfl, trivial⟩
  exact ⟨v, hrun⟩

end Wrapfs
