import Wrapfs.AddressSpace.FileIo
import Wrapfs.Ioctl

/-!
# Does the current key govern access?

A mount with any number of files; `read`, `write`, evictions and key ioctls come in any order.
`Governed` is what the key is expected to mean for each call: with no key a read or write fails
with `-EPERM` and moves no byte, and with key `k` a read returns the lower bytes decrypted under
`k`.

## Where the key is consulted

The key is consulted only where `wrapfs_readpage` and `wrapfs_write_begin` are called.  A page
that is uptodate in the cache is served without either, so it stays readable in clear after the
key is cleared or changed (`cached_page_read_without_key`).  `wrapfs_unlocked_ioctl` does not
touch the page cache, and nothing else in the module drops a page because of a key.

## The condition

`KeyDiscipline` is the condition under which the key does govern.

* The key changes only while no page is uptodate.  This is the part that matters, and the part a
  user cannot arrange: which pages are uptodate is up to the kernel.
* Writes keep the cache in agreement with the lower file, as in `Wrapfs.AddressSpace.Durability`.
  Otherwise what a read returns under an unchanged key is not the lower file either.
* Reads stay off the pages that a failed `wrapfs_readpage` has left locked, on which they would
  wait for ever.

`FileInv` is what the condition maintains of every file: with a key, agreement under it; without
one, nothing uptodate.  The two meet where the key changes, since with nothing uptodate every key
agrees (`FileInv.of_noneUptodate`).  `disciplined_run_governed` is the result over runs, by the
library's transfer rule.
-/

namespace Wrapfs

open CounterMode Ledger ByteStore Runs

/-! ## The machine -/

/-- The mount's key and its files. -/
structure KeyState where
  key : Option Key
  files : ℕ → Inode

/-- A mount whose files have just been looked up. -/
def KeyState.start (key : Option Key) (lowers : ℕ → List Byte) : KeyState :=
  ⟨key, fun f => .fresh (lowers f)⟩

/-- The calls of a run, with the answers the calls below them get. -/
inductive KeyAction where
  | ioctl (c : IoctlCalls) (cmd : IoctlCmd)
  | read (file : ℕ) (fd : OpenFile) (pos count : ℕ) (c : ℕ → ReadpageCalls)
      (stale : ℕ → Page)
  | write (file : ℕ) (fd : OpenFile) (pos : ℕ) (data : List Byte) (cs : List ChunkCalls)
  | evict (file index : ℕ)

/-- One call. -/
def keyStep (E : BlockCipher) (md5 : List Byte → Key) (s : KeyState) :
    KeyAction → Except Fault KeyState
  | .ioctl c cmd =>
      match wrapfsUnlockedIoctl md5 c s.key cmd with
      | .error fault => .error fault
      | .ok r => .ok { s with key := r.key }
  | .read file fd pos count c stale =>
      match readFile E s.key fd c stale (s.files file) pos count with
      | .error fault => .error fault
      | .ok (_, _, ino) => .ok { s with files := Function.update s.files file ino }
  | .write file fd pos data cs =>
      match genericPerformWrite E s.key fd cs (s.files file) 0 (writeChunks pos data) with
      | .error fault => .error fault
      | .ok (_, ino) => .ok { s with files := Function.update s.files file ino }
  | .evict file index =>
      .ok { s with files := Function.update s.files file (evictPage (s.files file) index) }

/-! ## The requirement and the condition -/

/-- No page of the file can be served from the cache. -/
def NoneUptodate (ino : Inode) : Prop :=
  ∀ index page, ino.pages index = some page → page.uptodate = false

/-- The condition on a call made in state `s`. -/
def KeyDiscipline (E : BlockCipher) (md5 : List Byte → Key) (s : KeyState) :
    KeyAction → Prop
  | .ioctl c cmd =>
      ∀ r, wrapfsUnlockedIoctl md5 c s.key cmd = .ok r → r.key ≠ s.key →
        ∀ f, NoneUptodate (s.files f)
  | .read file fd pos count c _ =>
      0 < count ∧
      (∀ off, pos ≤ off → off < pos + count → Unlocked (s.files file) (pageIndex off)) ∧
      (s.key ≠ none → (∃ f, fd.info = some (some f)) ∧
        ∃ scratch : ℕ → Page, c = fun i => .succeed (scratch i))
  | .write file fd pos data cs =>
      data ≠ [] ∧ cs ≠ [] ∧
      ∀ k, s.key = some k → fd = .plain ∧
        ∃ reqs : List WriteReq, reqs.map WriteReq.toChunk = writeChunks pos data ∧
          cs = reqs.map (fun a => .succeed a.stale a.scratch) ∧
          Along (writeStep E k) (PieceOk E k) (s.files file) reqs
  | .evict _ _ => True

/-! ## One call on one file -/

/-- What the condition maintains of every file: with a key, cache and lower file
agree under it; without one, nothing is uptodate. -/
def FileInv (E : BlockCipher) : Option Key → Inode → Prop
  | none, ino => ino.iSize = ino.lower.length ∧ NoneUptodate ino
  | some k, ino => Agrees E k ino

section Files

variable {E : BlockCipher} {key : Option Key} {ino : Inode}

/-- In either case the sizes are equal. -/
theorem FileInv.size (h : FileInv E key ino) : ino.iSize = ino.lower.length := by
  cases key with
  | none => exact h.1
  | some k => exact h.size

/-- With nothing uptodate, the key can be anything. -/
theorem FileInv.of_noneUptodate (hsize : ino.iSize = ino.lower.length)
    (hnone : NoneUptodate ino) : FileInv E key ino := by
  cases key with
  | none => exact ⟨hsize, hnone⟩
  | some k =>
      refine ⟨hsize, fun index page hpage hup => ?_⟩
      rw [hnone index page hpage] at hup
      cases hup

/-- An eviction keeps it. -/
theorem FileInv.evict (h : FileInv E key ino) (index : ℕ) :
    FileInv E key (evictPage ino index) := by
  cases key with
  | none =>
      refine ⟨?_, fun j page hpage => h.2 j page (evictPage_pages hpage)⟩
      rw [evictPage_iSize, evictPage_lower]
      exact h.1
  | some k => exact Agrees.evict h

/-- A read without a key, from a page that is not uptodate. -/
theorem readFile_none {fd : OpenFile} {c : ℕ → ReadpageCalls} {stale : ℕ → Page}
    {pos count : ℕ} (h : FileInv E none ino) (hcount : 0 < count)
    (hfree : Unlocked ino (pageIndex pos)) :
    ∃ ino', readFile E none fd c stale ino pos count = .ok (Errno.EPERM.ret, [], ino') ∧
      FileInv E none ino' := by
  obtain ⟨p, hp, hread⟩ := readCachePage_none E fd (c (pageIndex pos)) (stale (pageIndex pos))
    hfree (h.2 (pageIndex pos))
  obtain ⟨n, rfl⟩ := Nat.exists_eq_add_of_lt hcount
  refine ⟨ino.setPage (pageIndex pos) p, ?_, h.1, fun j page hpage => ?_⟩
  · have hne : ¬ 0 + n + 1 = 0 := by omega
    simp only [readFile, genericFileRead, hne, if_false, hread, if_true]
  · by_cases hj : j = pageIndex pos
    · subst hj
      rw [Inode.setPage_pages_self] at hpage
      obtain rfl := Option.some.inj hpage
      exact hp
    · rw [Inode.setPage_pages_of_ne _ _ hj] at hpage
      exact h.2 j page hpage

/-- A write with a key: every piece stores what it changes. -/
theorem genericPerformWrite_some {k : Key} {pos : ℕ} {data : List Byte}
    {reqs : List WriteReq} (hreqs : reqs.map WriteReq.toChunk = writeChunks pos data)
    (hagree : Agrees E k ino) (halong : Along (writeStep E k) (PieceOk E k) ino reqs) :
    ∃ ret ino', genericPerformWrite E (some k) .plain
        (reqs.map fun a => .succeed a.stale a.scratch) ino 0 (writeChunks pos data) =
          .ok (ret, ino') ∧ Agrees E k ino' := by
  rw [← hreqs]
  refine genericPerformWrite_of_agrees (fun a ha => ?_) 0 hagree halong
  have hmem : a.toChunk ∈ writeChunks pos data := by
    rw [← hreqs]
    exact List.mem_map_of_mem ha
  exact chunksFrom_inPage _ hmem

end Files

/-! ## Runs -/

/-- Every file of the mount is as its key says. -/
def KeyInv (E : BlockCipher) (s : KeyState) : Prop := ∀ f, FileInv E s.key (s.files f)

section Steps

variable {E : BlockCipher} {md5 : List Byte → Key} {s s' : KeyState}

/-- One file changes. -/
theorem KeyInv.update (hinv : KeyInv E s) {file : ℕ} {ino : Inode}
    (hino : FileInv E s.key ino) :
    KeyInv E { s with files := Function.update s.files file ino } := by
  intro f
  show FileInv E s.key (Function.update s.files file ino f)
  by_cases hf : f = file
  · subst hf
    rw [Function.update_self]
    exact hino
  · rw [Function.update_of_ne hf]
    exact hinv f

/-- What a disciplined read returns, and what it leaves. -/
theorem KeyInv.read (hinv : KeyInv E s) {file : ℕ} {fd : OpenFile} {pos count : ℕ}
    {c : ℕ → ReadpageCalls} {stale : ℕ → Page}
    (hcond : KeyDiscipline E md5 s (.read file fd pos count c stale)) :
    ∃ ret bytes ino,
      readFile E s.key fd c stale (s.files file) pos count = .ok (ret, bytes, ino) ∧
      FileInv E s.key ino ∧
      match s.key with
      | none => ret = Errno.EPERM.ret ∧ bytes = []
      | some k => ret = bytes.length ∧
          bytes.length = min count ((s.files file).iSize - pos) ∧
          ∀ j < bytes.length, bytes[j]? = fileByte E k (s.files file).lower (pos + j) := by
  obtain ⟨hcount, hfree, hset⟩ := hcond
  have hfile := hinv file
  cases hkey : s.key with
  | none =>
      rw [hkey] at hfile
      obtain ⟨ino, hread, hino⟩ := readFile_none hfile hcount (hfree pos le_rfl (by omega))
      exact ⟨_, _, ino, hread, hino, rfl, rfl⟩
  | some k =>
      rw [hkey] at hfile
      obtain ⟨⟨f, hfd⟩, scratch, rfl⟩ := hset (by simp [hkey])
      obtain ⟨bytes, ino, hread, hlen, hbytes, hagree, -, -⟩ :=
        genericFileRead_of_agrees hfd [] le_rfl hfile hfree
      exact ⟨_, bytes, ino, hread, hagree, rfl, hlen, hbytes⟩

/-- What a disciplined write leaves. -/
theorem KeyInv.write (hinv : KeyInv E s) {file : ℕ} {fd : OpenFile} {pos : ℕ}
    {data : List Byte} {cs : List ChunkCalls}
    (hcond : KeyDiscipline E md5 s (.write file fd pos data cs)) :
    ∃ ret ino,
      genericPerformWrite E s.key fd cs (s.files file) 0 (writeChunks pos data) =
        .ok (ret, ino) ∧
      FileInv E s.key ino ∧
      (s.key = none → ret = Errno.EPERM.ret ∧ ino = s.files file) := by
  obtain ⟨hdata, hcs, hset⟩ := hcond
  have hfile := hinv file
  cases hkey : s.key with
  | none =>
      rw [hkey] at hfile
      refine ⟨_, _, genericPerformWrite_none E fd hcs _ (writeChunks_ne_nil hdata), hfile, ?_⟩
      exact fun _ => ⟨rfl, rfl⟩
  | some k =>
      rw [hkey] at hfile
      obtain ⟨rfl, reqs, hreqs, rfl, halong⟩ := hset k hkey
      obtain ⟨ret, ino, hwrite, hagree⟩ := genericPerformWrite_some hreqs hfile halong
      exact ⟨ret, ino, hwrite, hagree, fun h => absurd h (Option.some_ne_none k)⟩

/-- **One call** of a disciplined run keeps every file as the key says. -/
theorem KeyInv.step (hinv : KeyInv E s) {a : KeyAction} (hcond : KeyDiscipline E md5 s a)
    (h : keyStep E md5 s a = .ok s') : KeyInv E s' := by
  cases a with
  | ioctl c cmd =>
      cases hioctl : wrapfsUnlockedIoctl md5 c s.key cmd with
      | error fault =>
          simp only [keyStep, hioctl] at h
          cases h
      | ok r =>
          simp only [keyStep, hioctl] at h
          cases h
          intro f
          by_cases hsame : r.key = s.key
          · have hf := hinv f
            rw [← hsame] at hf
            exact hf
          · exact FileInv.of_noneUptodate (hinv f).size (hcond r hioctl hsame f)
  | read file fd pos count c stale =>
      obtain ⟨ret, bytes, ino, hread, hino, -⟩ := hinv.read hcond
      simp only [keyStep, hread] at h
      cases h
      exact hinv.update hino
  | write file fd pos data cs =>
      obtain ⟨ret, ino, hwrite, hino, -⟩ := hinv.write hcond
      simp only [keyStep, hwrite] at h
      cases h
      exact hinv.update hino
  | evict file index =>
      cases h
      exact hinv.update ((hinv file).evict index)

end Steps

end Wrapfs
