import Wrapfs.Crypto
import Wrapfs.Foundations.ByteStore

/-!
# The address space operations (`mmap.c`)

`wrapfs_readpage`, `wrapfs_writepage`, `wrapfs_write_begin`, `fill_zeros_to_end_of_page` and
`wrapfs_write_end`, each as a function from the state of one inode to its new state.
`wrapfs_flush` (`file.c`) and the few VFS routines that drive the operations are here too.

## State

`Inode` holds what the operations read and write of one regular file: the bytes of the lower file,
the upper `i_size`, and the upper page cache with each page's `PG_uptodate`, `PG_locked` and
reference count.  The mount's key is an argument, `Option Key`, because `WRAPFS_SB(sb)->keyVal`
belongs to the super block and is read anew by every operation.

The lower file is its bytes and not another page cache: `vfs_read` and `vfs_write` go through the
lower file system, and what they transfer is what counts.  The one place that does see a lower
page is the dead half of `wrapfs_writepage` (`copyToLowerPage`).

## What can go wrong

The answers of the calls an operation makes are an explicit argument: whether `alloc_page`
succeeds and what the page it returns holds, how the crypto calls end, how much the lower
`vfs_read` or `vfs_write` transfers.  An operation that does not return because it fails an
assertion, dereferences a bad pointer, or waits for a page lock, is an `Except.error`.

`kunmap` of a page that was never allocated is left on the scratch trace as the release it is;
with `CONFIG_HIGHMEM` it would also follow the null pointer.

Two exits leave without the work their neighbours do, and the model keeps them so:
`wrapfs_readpage` returns `-EPERM` *with the page still locked* when no key is set, and
`wrapfs_write_end` returns `-EIO` the same way when there is no lower file.  The test at the head
of `wrapfs_writepage` is kept as written as well: it leaves early when the inode *has* a lower
inode.

## What the modules above use

`performWrite_eq` (`Wrapfs.AddressSpace.Write`), `vfsReadpage_eq` and `readCachePage_eq`
(`Wrapfs.AddressSpace.Coherence`) are the specifications of the successful paths, and all that the
results about stored data use.  The error paths are taken apart in `Wrapfs.AddressSpace.PageRead`
and `Wrapfs.AddressSpace.PageWrite`.
-/

namespace Wrapfs

open CounterMode Ledger ByteStore

/-! ## State -/

/-- A page of the upper page cache. -/
structure CachePage where
  data : Page
  /-- `PG_uptodate` -/
  uptodate : Bool
  /-- `PG_locked` -/
  locked : Bool
  /-- References taken by calls in progress. -/
  refs : ℕ

/-- One upper inode, with its lower file and its page cache. -/
structure Inode where
  /-- The lower file, byte by byte; its length is the lower `i_size`. -/
  lower : List Byte
  /-- The upper `i_size`. -/
  iSize : ℕ
  pages : ℕ → Option CachePage
  /-- The indices tagged dirty in the page cache. -/
  dirty : List ℕ
  /-- `WRAPFS_I(inode)->lower_inode` is not NULL. -/
  lowerInode : Bool

/-- An inode fresh from `wrapfs_iget`: the size is copied from the lower inode and
nothing is cached. -/
def Inode.fresh (lower : List Byte) : Inode where
  lower := lower
  iSize := lower.length
  pages := fun _ => none
  dirty := []
  lowerInode := true

/-- A file just created. -/
def emptyInode : Inode := .fresh []

/-- A lower open file, with the one flag of it that matters to `vfs_write`. -/
structure LowerFile where
  append : Bool

/-- An upper open file: its `wrapfs_file_info`, if any, with the lower file it
holds, if any, and `FMODE_WRITE`. -/
structure OpenFile where
  info : Option (Option LowerFile)
  fmodeWrite : Bool

/-- A file that is open: it has a lower file. -/
def OpenFile.of (f : LowerFile) (fmodeWrite : Bool) : OpenFile := ⟨some (some f), fmodeWrite⟩

/-- A file opened for writing, without `O_APPEND`. -/
def OpenFile.plain : OpenFile := ⟨some (some ⟨false⟩), true⟩

/-- It has a lower file. -/
theorem OpenFile.plain_info : OpenFile.plain.info = some (some ⟨false⟩) := rfl

def Inode.setPage (ino : Inode) (index : ℕ) (page : CachePage) : Inode :=
  { ino with pages := Function.update ino.pages index (some page) }

@[simp] theorem Inode.setPage_lower (ino : Inode) (index : ℕ) (page : CachePage) :
    (ino.setPage index page).lower = ino.lower := rfl

@[simp] theorem Inode.setPage_iSize (ino : Inode) (index : ℕ) (page : CachePage) :
    (ino.setPage index page).iSize = ino.iSize := rfl

@[simp] theorem Inode.setPage_dirty (ino : Inode) (index : ℕ) (page : CachePage) :
    (ino.setPage index page).dirty = ino.dirty := rfl

@[simp] theorem Inode.setPage_lowerInode (ino : Inode) (index : ℕ) (page : CachePage) :
    (ino.setPage index page).lowerInode = ino.lowerInode := rfl

@[simp] theorem Inode.setPage_pages_self (ino : Inode) (index : ℕ) (page : CachePage) :
    (ino.setPage index page).pages index = some page := by
  simp [Inode.setPage]

theorem Inode.setPage_pages_of_ne (ino : Inode) {index j : ℕ} (page : CachePage)
    (h : j ≠ index) : (ino.setPage index page).pages j = ino.pages j := by
  simp [Inode.setPage, h]

@[simp] theorem Inode.setPage_setPage (ino : Inode) (index : ℕ) (p q : CachePage) :
    (ino.setPage index p).setPage index q = ino.setPage index q := by
  simp [Inode.setPage]

/-! ## Lower reads and writes -/

/-- How a lower read or write ends: it transfers all it can, at most `n` bytes,
or nothing. -/
inductive Transfer where
  | full
  | short (n : ℕ)
  | fail (e : Errno)

/-- `vfs_read(lower_file, buf, count, &pos)`. -/
def vfsRead (t : Transfer) (lower : List Byte) (pos count : ℕ) :
    Except Errno (List Byte) :=
  match t with
  | .full => .ok (pread lower pos count)
  | .short n => .ok (pread lower pos (min n count))
  | .fail e => .error e

/-- `vfs_write(lower_file, buf, count, &pos)`.  A lower file opened `O_APPEND`
writes at its end, wherever `pos` points. -/
def vfsWrite (t : Transfer) (f : LowerFile) (lower : List Byte) (pos : ℕ)
    (buf : List Byte) : ℤ × List Byte :=
  let start := if f.append then lower.length else pos
  match t with
  | .full => (buf.length, pwrite 0 lower start buf)
  | .short n => ((buf.take n).length, pwrite 0 lower start (buf.take n))
  | .fail e => (e.ret, lower)

/-! ## `wrapfs_readpage` -/

/-- The answers `wrapfs_readpage` gets: the scratch page (with its stale
contents), the lower read, the crypto calls. -/
structure ReadpageCalls where
  allocPage : Option Page
  read : Transfer
  cipher : CipherCalls

/-- What a page operation leaves behind. -/
structure PageOp where
  ret : ℤ
  inode : Inode
  scratch : List (Event Scratch)

/-- The `out` label of `wrapfs_readpage`. -/
def readpageOut (ino : Inode) (index : ℕ) (page : CachePage) (err : ℤ)
    (scratch : List (Event Scratch)) : PageOp where
  ret := err
  inode := ino.setPage index { page with uptodate := decide (err = 0), locked := false }
  scratch := scratch ++ [.release .mapDst]

/-- `wrapfs_readpage(file, page)`, for the locked page `page` of index `index`. -/
def wrapfsReadpage (E : BlockCipher) (key : Option Key) (file : OpenFile)
    (c : ReadpageCalls) (ino : Inode) (index : ℕ) (page : CachePage) :
    Except Fault PageOp :=
  match key with
  | none =>
      -- returned before the `out` label: nothing unlocks the page
      .ok { ret := Errno.EPERM.ret, inode := ino.setPage index page, scratch := [] }
  | some encKey =>
      match c.allocPage with
      | none => .ok (readpageOut ino index page Errno.ENOMEM.ret [])
      | some stale =>
          match file.info with
          | none =>
              .ok (readpageOut ino index page Errno.ENOENT.ret
                [.acquire .dstPage, .acquire .mapDst])
          | some none => .error .bugOn
          | some (some _) =>
              -- the lower bytes land at the start of the scratch page; the rest
              -- of it keeps what it held, and so does all of it on an error
              let dst := match vfsRead c.read ino.lower (pageStart index) pageCacheSize with
                | .ok bytes => storeBytes stale 0 bytes
                | .error _ => stale
              -- `err` of the read is overwritten here
              let r := wrapfsDecryptPageNew E c.cipher page.data dst encKey
              .ok (readpageOut ino index { page with data := r.dst } r.ret
                ([.acquire .dstPage, .acquire .mapDst, .acquire .mapPage] ++ r.scratch ++
                  [.release .mapPage]))

/-! ## `wrapfs_writepage` -/

/-- Bytes handed to the lower file, and the offset they are meant for. -/
structure Handed where
  offset : ℕ
  bytes : List Byte

/-- The answers `wrapfs_writepage` gets past its first test. -/
structure WritepageCalls where
  lowerPage : Bool
  forReclaim : Bool
  lowerWritepage : ℤ

/-- `AOP_WRITEPAGE_ACTIVATE`. -/
def aopWritepageActivate : ℤ := 0x80000

/-- Everything in `wrapfs_writepage` after its first test, for an inode that has
a lower inode: the page is copied, as it is, into the lower page.  A page of the
lower cache does not lengthen the lower file. -/
def copyToLowerPage (c : WritepageCalls) (ino : Inode) (index : ℕ) (page : CachePage) :
    ℤ × Inode × Option Handed :=
  if c.lowerPage then
    let bytes := pageBytes page.data 0 pageCacheSize
    let handed := some ⟨pageStart index, bytes⟩
    let ino := { ino with
      lower := (pwrite 0 ino.lower (pageStart index) bytes).take ino.lower.length }
    if c.forReclaim then
      (Errno.EIO.ret, ino.setPage index { page with locked := false }, handed)
    else if c.lowerWritepage < 0 then
      (c.lowerWritepage, ino.setPage index { page with locked := false }, handed)
    else
      let err := if c.lowerWritepage = aopWritepageActivate then 0 else c.lowerWritepage
      (err, { ino with iSize := ino.lower.length }.setPage index
        { page with locked := false }, handed)
  else
    (0, { ino with dirty := index :: ino.dirty }.setPage index
      { page with locked := false }, none)

/-- `wrapfs_writepage(page, wbc)`, for the locked page `page` of index `index`. -/
def wrapfsWritepage (c : WritepageCalls) (ino : Inode) (index : ℕ) (page : CachePage) :
    Except Fault (ℤ × Inode × Option Handed) :=
  if page.uptodate then
    -- the guard as written: `... || WRAPFS_I(inode)->lower_inode`
    if ino.lowerInode then
      .ok (0, ino.setPage index { page with locked := false }, none)
    else
      match ino.lowerInode with
      | false => .error .badPointer
      | true => .ok (copyToLowerPage c ino index page)
  else .error .bugOn

/-! ## `wrapfs_write_begin` -/

/-- `grab_cache_page_write_begin`: the cached page, or a new one holding
`stale`, locked and referenced; `none` when no page can be allocated. -/
def grabCachePageWriteBegin (ino : Inode) (index : ℕ) (stale : Option Page) :
    Except Fault (Option CachePage) :=
  match ino.pages index with
  | some page =>
      if page.locked then .error .blocked
      else .ok (some { page with locked := true, refs := page.refs + 1 })
  | none => .ok (stale.map fun data =>
      { data := data, uptodate := false, locked := true, refs := 1 })

/-- `wrapfs_write_begin(file, mapping, pos, len, ...)`. -/
def wrapfsWriteBegin (key : Option Key) (stale : Option Page) (ino : Inode)
    (pos len : ℕ) : Except Fault (ℤ × Inode) :=
  match key with
  | none => .ok (Errno.EPERM.ret, ino)
  | some _ =>
      match grabCachePageWriteBegin ino (pageIndex pos) stale with
      | .error fault => .error fault
      | .ok none => .ok (Errno.ENOMEM.ret, ino)
      | .ok (some page) =>
          let data :=
            if page.uptodate = false ∧ len ≠ pageCacheSize then
              zeroUserSegments page.data 0 (pageOffset pos) (pageOffset pos + len)
                pageCacheSize
            else page.data
          .ok (0, ino.setPage (pageIndex pos) { page with data := data, uptodate := true })

/-! ## `wrapfs_write_end` -/

/-- `fill_zeros_to_end_of_page(page, to)`. -/
def fillZerosToEndOfPage (iSize index : ℕ) (page : Page) (upTo : ℕ) : Page :=
  if iSize / pageCacheSize ≠ index then page
  else
    let endByteInPage :=
      if upTo > iSize % pageCacheSize then upTo else iSize % pageCacheSize
    zeroUserSegment page endByteInPage pageCacheSize

/-- The answers `wrapfs_write_end` gets. -/
structure WriteEndCalls where
  allocPage : Option Page
  cipher : CipherCalls
  write : Transfer

/-- What `wrapfs_write_end` leaves behind, with the bytes it gave to the lower
`vfs_write`. -/
structure WriteEnd where
  ret : ℤ
  inode : Inode
  handed : Option Handed
  scratch : List (Event Scratch)

/-- `wrapfs_write_end` from the lower `vfs_write` on, with `buf` the bytes it
writes: the lower write at the start of the page, the two size updates around
the zeroing of the page's tail, and the page's release. -/
def writeEndStore (write : Transfer) (f : LowerFile) (ino : Inode)
    (pos copied index : ℕ) (page : CachePage) (buf : List Byte) : Inode :=
  let w := vfsWrite write f ino.lower (pageStart index) buf
  let rc := if w.1 > 0 then 0 else w.1
  let iSize := if rc = 0 then w.2.length else ino.iSize
  let data := fillZerosToEndOfPage iSize index page.data (pageOffset pos + copied)
  { ino with
    lower := w.2
    iSize := if pos + copied > iSize then pos + copied else iSize
    dirty := index :: ino.dirty }.setPage index
      { page with data := data, locked := false, refs := page.refs - 1 }

/-- `wrapfs_write_end(file, mapping, pos, len, copied, page, fsdata)`, for the
page `page` of index `index` that `wrapfs_write_begin` left locked. -/
def wrapfsWriteEnd (E : BlockCipher) (key : Option Key) (file : OpenFile)
    (c : WriteEndCalls) (ino : Inode) (pos copied index : ℕ) (page : CachePage) :
    Except Fault WriteEnd :=
  match file.info with
  | none => .error .badPointer
  | some none =>
      -- returned before the `out` label: nothing unlocks or releases the page
      .ok { ret := Errno.EIO.ret, inode := ino, handed := none, scratch := [] }
  | some (some f) =>
      match key with
      | none =>
          let buf := pageBytes page.data (pageOffset pos) copied
          .ok
            { ret := copied
              inode := writeEndStore c.write f ino pos copied index page buf
              handed := some ⟨pageStart index, buf⟩
              scratch := [.acquire .mapPage, .release .mapPage] }
      | some encKey =>
          match c.allocPage with
          | none =>
              -- `ret = -ENOMEM`, but it is `rc`, still 0, that is returned
              .ok
                { ret := 0
                  inode := ino.setPage index
                    { page with locked := false, refs := page.refs - 1 }
                  handed := none
                  scratch := [.release .mapDst] }
          | some stale =>
              let r := wrapfsEncryptPageNew E c.cipher page.data stale encKey
              let buf := pageBytes r.dst 0 copied
              .ok
                { ret := copied
                  inode := writeEndStore c.write f ino pos copied index page buf
                  handed := some ⟨pageStart index, buf⟩
                  scratch := [.acquire .dstPage, .acquire .mapDst, .acquire .mapPage] ++
                    r.scratch ++ [.release .mapPage, .release .mapDst] }

/-! ## The VFS routines around them -/

/-- `add_to_page_cache` and `lock_page`: the page a `readpage` call is made on. -/
def lockPage (ino : Inode) (index : ℕ) (stale : Page) : Except Fault CachePage :=
  match ino.pages index with
  | some page => if page.locked then .error .blocked else .ok { page with locked := true }
  | none => .ok { data := stale, uptodate := false, locked := true, refs := 0 }

/-- The VFS calls `->readpage` on the page of index `index`; `stale` is what a
newly allocated cache page holds. -/
def vfsReadpage (E : BlockCipher) (key : Option Key) (file : OpenFile)
    (c : ReadpageCalls) (stale : Page) (ino : Inode) (index : ℕ) :
    Except Fault PageOp :=
  match lockPage ino index stale with
  | .error fault => .error fault
  | .ok page => wrapfsReadpage E key file c ino index page

/-- How `do_generic_file_read` gets at a page: an uptodate page is served from the
cache, anything else goes through `->readpage`, whose error ends the read.  The
first component is the error or the page's contents. -/
def readCachePage (E : BlockCipher) (key : Option Key) (file : OpenFile)
    (c : ReadpageCalls) (stale : Page) (ino : Inode) (index : ℕ) :
    Except Fault (Except ℤ Page × Inode) :=
  let readpage := match vfsReadpage E key file c stale ino index with
    | .error fault => .error fault
    | .ok r =>
        if r.ret ≠ 0 then .ok (.error r.ret, r.inode)
        else
          match r.inode.pages index with
          | some page =>
              if page.uptodate then .ok (.ok page.data, r.inode)
              else .ok (.error Errno.EIO.ret, r.inode)
          | none => .ok (.error Errno.EIO.ret, r.inode)
  match ino.pages index with
  | some page => if page.uptodate then .ok (.ok page.data, ino) else readpage
  | none => readpage

/-- The user copy between `write_begin` and `write_end`. -/
def copyFromUser (ino : Inode) (pos : ℕ) (data : List Byte) : Inode :=
  match ino.pages (pageIndex pos) with
  | none => ino
  | some page =>
      ino.setPage (pageIndex pos)
        { page with data := storeBytes page.data (pageOffset pos) data }

/-- Drop a page from the cache.  A locked page is never reclaimed. -/
def evictPage (ino : Inode) (index : ℕ) : Inode :=
  match ino.pages index with
  | none => ino
  | some page =>
      if page.locked then ino
      else { ino with
        pages := Function.update ino.pages index none
        dirty := ino.dirty.filter (· ≠ index) }

/-- One turn of `write_cache_pages`: lock the page, clear its dirty tag, call
`->writepage`. -/
def writeCachePage (c : WritepageCalls) (ino : Inode) (index : ℕ) :
    Except Fault (ℤ × Inode) :=
  match ino.pages index with
  | none => .ok (0, ino)
  | some page =>
      if page.locked then .error .blocked
      else
        match wrapfsWritepage c { ino with dirty := ino.dirty.filter (· ≠ index) } index
            { page with locked := true } with
        | .error fault => .error fault
        | .ok (ret, ino', _) => .ok (ret, ino')

/-- `write_cache_pages` over the indices tagged dirty; the first error ends it. -/
def writeCachePages (c : WritepageCalls) : List ℕ → Inode → Except Fault (ℤ × Inode)
  | [], ino => .ok (0, ino)
  | index :: rest, ino =>
      match writeCachePage c ino index with
      | .error fault => .error fault
      | .ok (ret, ino') =>
          if ret = 0 then writeCachePages c rest ino' else .ok (ret, ino')

/-- `wrapfs_flush(file, id)`; `lowerFlush` is what the lower `->flush` returns,
if the lower file has one. -/
def wrapfsFlush (c : WritepageCalls) (lowerFlush : Option ℤ) (file : OpenFile)
    (ino : Inode) : Except Fault (ℤ × Inode) :=
  let r := if file.fmodeWrite then writeCachePages c ino.dirty ino else .ok (0, ino)
  match r with
  | .error fault => .error fault
  | .ok (err, ino') =>
      if err < 0 then .ok (err, ino')
      else
        match file.info with
        | none => .error .badPointer
        | some none => .ok (err, ino')
        | some (some _) => .ok (lowerFlush.getD err, ino')

end Wrapfs
