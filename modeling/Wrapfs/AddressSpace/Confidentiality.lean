import Wrapfs.AddressSpace.Operations
import Wrapfs.Foundations.Runs
import Wrapfs.Ioctl

/-!
# What reaches the lower file, under any interleaving

A mount with any number of files and writers.  A writer's chunk is three separate steps,
`wrapfs_write_begin`, the user copy and `wrapfs_write_end`, and between them anything else may
happen: other writers' steps, `wrapfs_writepage` on any page, and key ioctls, which take no lock.

Every step that gives bytes to the lower file leaves a `Report` in the log.  `Protected` is the
requirement on one report: the bytes are the page's, encrypted under a key that was set at some
time during that write; or nothing was given and the write was refused.  A writer carries the keys
the mount has had since its `write_begin`, which is what "during that write" comes to.

## Where the requirement rests

`wrapfs_write_begin` refuses to start without a key, but `wrapfs_write_end` reads the key again,
and both of its other paths give the lower file something else: without a key it writes the page's
plain bytes, and when the cipher fails it writes what the scratch page held, because the return
value of `wrapfs_encrypt_page_new` is not looked at.  `EncryptsAtEnd` is the condition that
neither happens; `handed_bytes_protected` is the result for every run that meets it, and
`plaintext_handed_after_clear` a run that does not: the key is cleared between the two calls of
one write.

`wrapfs_writepage` copies plain bytes too, but behind a test that never lets it
(`wrapfsWritepage_handed`).

## The invariant

`MountInv` carries two facts besides the reports.  The present key is among the keys of every
write in progress, which an ioctl keeps by adding the new key to all of them; and a user copy
delivers no more than was asked for, so that what `wrapfs_write_end` hands over lies in its page.
There is one lemma for each step, and `Wrapfs.AddressSpace.LowerBytes` and
`Wrapfs.AddressSpace.PageLocks` extend the same machine.
-/

namespace Wrapfs

open CounterMode Ledger ByteStore Runs

/-! ## The machine -/

/-- The file range of a chunk; the VFS never lets it cross a page. -/
structure Extent where
  pos : ℕ
  len : ℕ
  fits : pageOffset pos + len ≤ pageCacheSize

/-- The page index of an extent. -/
def Extent.index (e : Extent) : ℕ := pageIndex e.pos

/-- A write between `write_begin` and `write_end`.  `keys` lists the keys the mount
has had since its `write_begin`. -/
structure Writer where
  file : ℕ
  fd : OpenFile
  extent : Extent
  copied : ℕ
  keys : List Key

/-- What a step has to answer for: a `write_begin`, with the key it found and what
it returned; a `write_end` or `writepage`, with the keys of the write, the page,
what it returned and what it gave to the lower file. -/
inductive Report where
  | began (key : Option Key) (ret : ℤ)
  | stored (keys : List Key) (index : ℕ) (page : Page) (ret : ℤ) (handed : Option Handed)

/-- A mount: its key, its files, the writes in progress, the reports so far. -/
structure MountState where
  key : Option Key
  inodes : ℕ → Inode
  writers : ℕ → Option Writer
  log : List Report

/-- A mount with no write in progress. -/
def MountState.start (key : Option Key) (inodes : ℕ → Inode) : MountState :=
  ⟨key, inodes, fun _ => none, []⟩

/-- The steps of a mount, with the writer or file concerned and the answers of the
calls made. -/
inductive MountAction where
  | ioctl (c : IoctlCalls) (cmd : IoctlCmd)
  | writeBegin (writer file : ℕ) (fd : OpenFile) (extent : Extent) (stale : Option Page)
  | userCopy (writer : ℕ) (data : List Byte)
  | writeEnd (writer : ℕ) (c : WriteEndCalls)
  | writepage (file index : ℕ) (c : WritepageCalls)

/-- A key ioctl; every write in progress sees the new key. -/
def ioctlStep (md5 : List Byte → Key) (s : MountState) (c : IoctlCalls) (cmd : IoctlCmd) :
    Except Fault MountState :=
  match wrapfsUnlockedIoctl md5 c s.key cmd with
  | .error fault => .error fault
  | .ok r => .ok { s with
      key := r.key
      writers := fun w =>
        (s.writers w).map fun wr => { wr with keys := r.key.toList ++ wr.keys } }

/-- `wrapfs_write_begin` by an idle writer. -/
def writeBeginStep (s : MountState) (writer file : ℕ) (fd : OpenFile) (extent : Extent)
    (stale : Option Page) : Except Fault MountState :=
  match s.writers writer with
  | some _ => .error .blocked
  | none =>
      match wrapfsWriteBegin s.key stale (s.inodes file) extent.pos extent.len with
      | .error fault => .error fault
      | .ok (ret, ino) => .ok { s with
          inodes := Function.update s.inodes file ino
          writers := if ret = 0 then
              Function.update s.writers writer (some ⟨file, fd, extent, 0, s.key.toList⟩)
            else s.writers
          log := s.log ++ [.began s.key ret] }

/-- The user copy delivers some of the bytes; it may stop short. -/
def userCopyStep (s : MountState) (writer : ℕ) (data : List Byte) :
    Except Fault MountState :=
  match s.writers writer with
  | none => .error .blocked
  | some wr =>
      let bytes := data.take wr.extent.len
      .ok { s with
        inodes := Function.update s.inodes wr.file
          (copyFromUser (s.inodes wr.file) wr.extent.pos bytes)
        writers := Function.update s.writers writer (some { wr with copied := bytes.length }) }

/-- `wrapfs_write_end`, with whatever key the mount has now. -/
def writeEndStep (E : BlockCipher) (s : MountState) (writer : ℕ) (c : WriteEndCalls) :
    Except Fault MountState :=
  match s.writers writer with
  | none => .error .blocked
  | some wr =>
      match (s.inodes wr.file).pages wr.extent.index with
      | none => .error .badPointer
      | some page =>
          match wrapfsWriteEnd E s.key wr.fd c (s.inodes wr.file) wr.extent.pos wr.copied
              wr.extent.index page with
          | .error fault => .error fault
          | .ok r => .ok { s with
              inodes := Function.update s.inodes wr.file r.inode
              writers := Function.update s.writers writer none
              log := s.log ++ [.stored wr.keys wr.extent.index page.data r.ret r.handed] }

/-- Writeback picks a cached page, locks it and calls `wrapfs_writepage`. -/
def writepageStep (s : MountState) (file index : ℕ) (c : WritepageCalls) :
    Except Fault MountState :=
  match (s.inodes file).pages index with
  | none => .ok s
  | some page =>
      if page.locked then .error .blocked
      else
        match wrapfsWritepage c (s.inodes file) index { page with locked := true } with
        | .error fault => .error fault
        | .ok (ret, ino, handed) => .ok { s with
            inodes := Function.update s.inodes file ino
            log := s.log ++ [.stored s.key.toList index page.data ret handed] }

/-- One step of the mount. -/
def mountStep (E : BlockCipher) (md5 : List Byte → Key) (s : MountState) :
    MountAction → Except Fault MountState
  | .ioctl c cmd => ioctlStep md5 s c cmd
  | .writeBegin writer file fd extent stale => writeBeginStep s writer file fd extent stale
  | .userCopy writer data => userCopyStep s writer data
  | .writeEnd writer c => writeEndStep E s writer c
  | .writepage file index c => writepageStep s file index c

/-! ## The requirement -/

/-- The bytes are those of the page, from its start on, each encrypted under one of
`keys`, and meant for the page's own place in the lower file. -/
def EncryptionOf (E : BlockCipher) (keys : List Key) (index : ℕ) (page : Page)
    (h : Handed) : Prop :=
  h.offset = pageStart index ∧ h.bytes.length ≤ pageCacheSize ∧
    ∃ k ∈ keys, ∀ i : Fin pageCacheSize, i.val < h.bytes.length →
      h.bytes[i.val]? = some (cipherByte E k i.val (page i))

/-- What each report must satisfy: without a key a write is refused at its start;
what is given to the lower file is encrypted; where nothing is given, no byte is
reported as written. -/
def Protected (E : BlockCipher) : Report → Prop
  | .began key ret => key = none → ret = Errno.EPERM.ret
  | .stored _ _ _ ret none => ret ≤ 0
  | .stored keys index page _ (some h) => EncryptionOf E keys index page h

/-- The condition: whenever `wrapfs_write_end` runs, the key is set, and if it gets
its scratch page the cipher calls succeed. -/
def EncryptsAtEnd (s : MountState) : MountAction → Prop
  | .writeEnd _ c => s.key ≠ none ∧ (c.allocPage = none ∨ c.cipher = .succeed)
  | _ => True

/-! ## What the operations hand over -/

/-- `wrapfs_writepage` never hands anything over: the test at its head lets only
an inode *without* a lower inode pass. -/
theorem wrapfsWritepage_handed {c : WritepageCalls} {ino ino' : Inode} {index : ℕ}
    {page : CachePage} {ret : ℤ} {handed : Option Handed}
    (h : wrapfsWritepage c ino index page = .ok (ret, ino', handed)) :
    ret = 0 ∧ handed = none := by
  unfold wrapfsWritepage at h
  split_ifs at h with hup hlower
  · cases h
    exact ⟨rfl, rfl⟩
  · simp only [hlower] at h
    cases h

/-- `wrapfs_write_begin` without a key. -/
theorem wrapfsWriteBegin_none {stale : Option Page} {ino ino' : Inode} {pos len : ℕ}
    {ret : ℤ} (h : wrapfsWriteBegin none stale ino pos len = .ok (ret, ino')) :
    ret = Errno.EPERM.ret := by
  cases h
  rfl

/-- What `wrapfs_write_end` hands over under the condition. -/
theorem wrapfsWriteEnd_protected {E : BlockCipher} {k : Key} {fd : OpenFile}
    {c : WriteEndCalls} {ino : Inode} {pos copied index : ℕ} {page : CachePage}
    {r : WriteEnd} (hcalls : c.allocPage = none ∨ c.cipher = .succeed)
    (hcopied : copied ≤ pageCacheSize) {keys : List Key} (hkey : k ∈ keys)
    (h : wrapfsWriteEnd E (some k) fd c ino pos copied index page = .ok r) :
    Protected E (.stored keys index page.data r.ret r.handed) := by
  obtain ⟨info, mode⟩ := fd
  rcases info with - | - | f
  · cases h
  · cases h
    exact le_of_lt (Errno.ret_neg _)
  · cases halloc : c.allocPage with
    | none =>
        simp only [wrapfsWriteEnd, halloc] at h
        cases h
        exact le_rfl
    | some stale =>
        have hcipher : c.cipher = .succeed := by
          rcases hcalls with hnone | hcipher
          · rw [halloc] at hnone
            cases hnone
          · exact hcipher
        simp only [wrapfsWriteEnd, halloc, hcipher, wrapfsEncryptPageNew_dst] at h
        cases h
        refine ⟨rfl, ?_, k, hkey, fun i hi => ?_⟩
        · simpa only [length_pageBytes] using hcopied
        · rw [length_pageBytes] at hi
          have hin : 0 + i.val < pageCacheSize := by omega
          have hi' : (⟨0 + i.val, hin⟩ : Fin pageCacheSize) = i := Fin.ext (Nat.zero_add _)
          rw [getElem?_pageBytes _ hi hin, hi', cipherPage]

/-! ## Runs -/

/-- What every step keeps: a write in progress has the mount's present key among
its keys and has copied no more than it asked for, and all reports so far are
protected. -/
structure MountInv (E : BlockCipher) (s : MountState) : Prop where
  keys : ∀ w wr, s.writers w = some wr → ∀ k, s.key = some k → k ∈ wr.keys
  copied : ∀ w wr, s.writers w = some wr → wr.copied ≤ wr.extent.len
  log : ∀ r ∈ s.log, Protected E r

/-- Nothing has happened yet. -/
theorem MountInv.start (E : BlockCipher) (key : Option Key) (inodes : ℕ → Inode) :
    MountInv E (.start key inodes) := by
  refine ⟨fun w wr hw => ?_, fun w wr hw => ?_, fun r hr => ?_⟩
  · cases hw
  · cases hw
  · cases hr

section Steps

variable {E : BlockCipher} {md5 : List Byte → Key} {s s' : MountState}

/-- A longer log is protected if what was added is. -/
theorem protected_append {log : List Report} {r : Report}
    (hlog : ∀ r ∈ log, Protected E r) (hr : Protected E r) :
    ∀ r' ∈ log ++ [r], Protected E r' := by
  intro r' hr'
  rcases List.mem_append.mp hr' with h | h
  · exact hlog r' h
  · obtain rfl := List.mem_singleton.mp h
    exact hr

/-- A key ioctl. -/
theorem MountInv.ioctl (hinv : MountInv E s) {c : IoctlCalls} {cmd : IoctlCmd}
    (h : ioctlStep md5 s c cmd = .ok s') : MountInv E s' := by
  unfold ioctlStep at h
  split at h
  · cases h
  · rename_i r hr
    cases h
    refine ⟨fun w wr hw k hk => ?_, fun w wr hw => ?_, hinv.log⟩
    · obtain ⟨wr₀, -, rfl⟩ := Option.map_eq_some_iff.mp hw
      have hk' : r.key = some k := hk
      simp [hk']
    · obtain ⟨wr₀, hw₀, rfl⟩ := Option.map_eq_some_iff.mp hw
      exact hinv.copied w wr₀ hw₀

/-- A write that begins, or is refused. -/
theorem MountInv.writeBegin (hinv : MountInv E s) {writer file : ℕ} {fd : OpenFile}
    {extent : Extent} {stale : Option Page}
    (h : writeBeginStep s writer file fd extent stale = .ok s') : MountInv E s' := by
  unfold writeBeginStep at h
  split at h
  · cases h
  · split at h
    · cases h
    · rename_i ret ino hbegin
      cases h
      have hlog : Protected E (.began s.key ret) := by
        intro hnone
        rw [hnone] at hbegin
        exact wrapfsWriteBegin_none hbegin
      -- the only writer that can be new is the one that began
      have hwriter : ∀ w wr,
          (if ret = 0 then
              Function.update s.writers writer (some ⟨file, fd, extent, 0, s.key.toList⟩)
            else s.writers) w = some wr →
          s.writers w = some wr ∨ wr = ⟨file, fd, extent, 0, s.key.toList⟩ := by
        intro w wr hw
        split at hw
        · by_cases hself : w = writer
          · subst hself
            rw [Function.update_self] at hw
            exact Or.inr (Option.some.inj hw).symm
          · rw [Function.update_of_ne hself] at hw
            exact Or.inl hw
        · exact Or.inl hw
      refine ⟨fun w wr hw k hk => ?_, fun w wr hw => ?_, protected_append hinv.log hlog⟩
      · rcases hwriter w wr hw with hold | rfl
        · exact hinv.keys w wr hold k hk
        · have hk' : s.key = some k := hk
          simp [hk']
      · rcases hwriter w wr hw with hold | rfl
        · exact hinv.copied w wr hold
        · exact Nat.zero_le _

/-- The user copy hands nothing over. -/
theorem MountInv.userCopy (hinv : MountInv E s) {writer : ℕ} {data : List Byte}
    (h : userCopyStep s writer data = .ok s') : MountInv E s' := by
  unfold userCopyStep at h
  split at h
  · cases h
  · rename_i wr₀ hw₀
    cases h
    refine ⟨fun w wr hw k hk => ?_, fun w wr hw => ?_, hinv.log⟩
    · by_cases hself : w = writer
      · subst hself
        have hw' := hw
        simp only [Function.update_self, Option.some.injEq] at hw'
        rw [← hw']
        exact hinv.keys w wr₀ hw₀ k hk
      · simp only [Function.update_of_ne hself] at hw
        exact hinv.keys w wr hw k hk
    · by_cases hself : w = writer
      · subst hself
        simp only [Function.update_self, Option.some.injEq] at hw
        rw [← hw]
        exact List.length_take_le _ _
      · simp only [Function.update_of_ne hself] at hw
        exact hinv.copied w wr hw

/-- **The step that hands over.** -/
theorem MountInv.writeEnd (hinv : MountInv E s) {writer : ℕ} {c : WriteEndCalls}
    (hcond : EncryptsAtEnd s (.writeEnd writer c))
    (h : writeEndStep E s writer c = .ok s') : MountInv E s' := by
  obtain ⟨hkey, hcalls⟩ := hcond
  obtain ⟨k, hk⟩ := Option.ne_none_iff_exists'.mp hkey
  unfold writeEndStep at h
  split at h
  · cases h
  · rename_i wr₀ hw₀
    split at h
    · cases h
    · rename_i page hpage
      split at h
      · cases h
      · rename_i r hr
        cases h
        have hcopied : wr₀.copied ≤ pageCacheSize := by
          have h₁ := hinv.copied writer wr₀ hw₀
          have h₂ := wr₀.extent.fits
          omega
        rw [hk] at hr
        have hprot := wrapfsWriteEnd_protected hcalls hcopied
          (hinv.keys writer wr₀ hw₀ k hk) hr
        have hwriter : ∀ w wr, Function.update s.writers writer none w = some wr →
            s.writers w = some wr := by
          intro w wr hw
          by_cases hself : w = writer
          · subst hself
            simp at hw
          · rwa [Function.update_of_ne hself] at hw
        exact ⟨fun w wr hw => hinv.keys w wr (hwriter w wr hw),
          fun w wr hw => hinv.copied w wr (hwriter w wr hw), protected_append hinv.log hprot⟩

/-- Writeback, which does not. -/
theorem MountInv.writepage (hinv : MountInv E s) {file index : ℕ} {c : WritepageCalls}
    (h : writepageStep s file index c = .ok s') : MountInv E s' := by
  unfold writepageStep at h
  split at h
  · cases h
    exact hinv
  · split at h
    · cases h
    · split at h
      · cases h
      · rename_i ret ino handed hpage
        cases h
        obtain ⟨rfl, rfl⟩ := wrapfsWritepage_handed hpage
        exact ⟨hinv.keys, hinv.copied, protected_append hinv.log le_rfl⟩

/-- **One step.** -/
theorem MountInv.step (hinv : MountInv E s) {a : MountAction} (hcond : EncryptsAtEnd s a)
    (h : mountStep E md5 s a = .ok s') : MountInv E s' := by
  cases a with
  | ioctl c cmd => exact hinv.ioctl h
  | writeBegin writer file fd extent stale => exact hinv.writeBegin h
  | userCopy writer data => exact hinv.userCopy h
  | writeEnd writer c => exact hinv.writeEnd hcond h
  | writepage file index c => exact hinv.writepage h

end Steps

/-- **No plaintext reaches the lower file** in any run — any interleaving of any
number of writers, of writeback and of key ioctls — in which every
`wrapfs_write_end` finds a key and a cipher that works: whatever is handed over is
the page encrypted under a key set during that write, and a write that is not
encrypted is refused. -/
theorem handed_bytes_protected (E : BlockCipher) (md5 : List Byte → Key)
    (key : Option Key) (inodes : ℕ → Inode) {as : List MountAction} {s' : MountState}
    (hcond : Along (mountStep E md5) EncryptsAtEnd (.start key inodes) as)
    (hrun : run (mountStep E md5) (.start key inodes) as = .ok s') :
    ∀ r ∈ s'.log, Protected E r := by
  have hinv : MountInv E s' :=
    hcond.invariant (fun _ _ _ hc hi hs => hi.step hc hs) (MountInv.start E key inodes) hrun
  exact hinv.log

/-! ## Two runs -/

/-- `WRAPFS_SETEKEY` with string `str`, every call succeeding. -/
def IoctlCalls.succeed (str : List Byte) : IoctlCalls :=
  ⟨true, true, true, true, true, some ⟨str, fun _ => 0⟩, ⟨true, true, true, true⟩, true⟩

/-- The first byte of a file. -/
def firstByte : Extent := ⟨0, 1, by decide⟩

/-- The start of a one-byte write of `a` to an empty file. -/
def beginWrite : List MountAction :=
  [.writeBegin 0 0 .plain firstByte (some fun _ => 0), .userCopy 0 [97]]

/-- Its end, every call succeeding. -/
def endWrite : MountAction := .writeEnd 0 ⟨some fun _ => 0, .succeed, .full⟩

/-- A write between two changes of key is encrypted. -/
theorem handed_bytes_protected_one_write :
    ∃ s', run (mountStep (constCipher 1) fun _ => zeroKey)
        (.start (some zeroKey) fun _ => emptyInode)
        (beginWrite ++ [.ioctl (.succeed [97]) (.setekey 1), endWrite]) = .ok s' ∧
      s'.log.length = 2 ∧ ∀ r ∈ s'.log, Protected (constCipher 1) r := by
  obtain ⟨s', hrun, hlen⟩ : ∃ s', run (mountStep (constCipher 1) fun _ => zeroKey)
      (.start (some zeroKey) fun _ => emptyInode)
      (beginWrite ++ [.ioctl (.succeed [97]) (.setekey 1), endWrite]) = .ok s' ∧
        s'.log.length = 2 := ⟨_, rfl, rfl⟩
  refine ⟨s', hrun, hlen, handed_bytes_protected _ _ _ _ ?_ hrun⟩
  refine ⟨trivial, fun s₁ h₁ => ⟨trivial, fun s₂ h₂ => ⟨trivial, fun s₃ h₃ => ?_⟩⟩⟩
  refine ⟨?_, fun _ _ => trivial⟩
  cases h₁
  cases h₂
  cases h₃
  exact ⟨Option.some_ne_none _, Or.inr rfl⟩

/-- **Plaintext reaches the lower file.**  The key is set when the write begins and
is cleared by an ioctl before it ends; `wrapfs_write_end` then hands over the byte
as it is. -/
theorem plaintext_handed_after_clear :
    ∃ s', run (mountStep (constCipher 1) fun _ => zeroKey)
        (.start (some zeroKey) fun _ => emptyInode)
        (beginWrite ++ [.ioctl (.succeed clearKeyString) (.setekey 1), endWrite]) = .ok s' ∧
      ∃ keys page, .stored keys 0 page 1 (some ⟨0, [97]⟩) ∈ s'.log ∧
        page 0 = 97 ∧ ¬ Protected (constCipher 1) (.stored keys 0 page 1 (some ⟨0, [97]⟩)) := by
  refine ⟨_, rfl, _, _, List.mem_cons_of_mem _ List.mem_cons_self, rfl, ?_⟩
  rintro ⟨-, -, k, -, hbytes⟩
  have hbyte := hbytes 0 (by decide)
  have hcipher : (97 : Byte) = 97 ^^^ 1 := Option.some.inj hbyte
  exact absurd hcipher (by decide)

end Wrapfs
