import Wrapfs.AddressSpace.Confidentiality
import Wrapfs.AddressSpace.Volume

/-!
# Where the bytes of the lower files come from

`Wrapfs.AddressSpace.Confidentiality` looks at what is handed to the lower files by the steps of a
write and by `wrapfs_writepage`.  That says something about the lower files only if nothing else
changes them, and a mount does more than write: pages are read and reclaimed, sizes are set, files
are flushed and synced.  Here all of it is one machine, `diskStep`, on any number of files, with
any failures and in any order; what is handed over is noted with the file it is for.

* `lower_unchanged_unless_stored`: a lower file changes only when its size is set or when bytes
  are noted for it.  In particular `wrapfs_flush` and `wrapfs_fsync` store nothing, whatever is in
  the page cache and whatever they return.
* `lower_bytes_encrypted`: if every `wrapfs_write_end` finds a key and a cipher that works, a byte
  of a lower file was there at the start, is a zero that the lower file system has filled in, or
  is the encryption of the byte at its place in a page of the same file, under a key that was set
  during that write.

## From what is handed over to what is stored

A lower file opened `O_APPEND` stores at its end what was meant for another place, so the second
result asks that no writer has opened its file that way (`NoAppend`); the first does not, since an
append is noted like any other write.  A lower write may be short, and stores a part of what it
was handed then; `vfsWrite_lower` says that this is always a part from the start.

## Steps

`diskStep_lower` says all that a step does to one lower file: it sets its size, stores bytes that
it reports, or leaves the file alone.  Both results are inductions over that alone, and neither
opens an operation again.  The lemmas `lower_wrapfsFlush`, `lower_wrapfsReadpage` and so on, one
for each operation, are what it is made of; they hold for any state of the page cache, unlike
those of `Wrapfs.AddressSpace.Coherence`, which are about files at rest.
-/

namespace Wrapfs

open CounterMode Ledger ByteStore Runs

/-! ## The machine -/

/-- The lower `notify_change`, or its refusal. -/
def notifyAnswered (answer : Option Errno) (s : List Byte) (ia : Iattr) : ℤ × List Byte :=
  answer.elim (byteListFs.notifyChange s ia) fun e => (e.ret, s)

/-- A size that was set is the size. -/
theorem size_notifyAnswered (answer : Option Errno) (s : List Byte) (ia : Iattr) (n : ℕ)
    (hn : ia.size = some n) (hret : (notifyAnswered answer s ia).1 = 0) :
    (notifyAnswered answer s ia).2.length = n := by
  cases answer with
  | none => exact byteListFs.size_notifyChange s ia n hn hret
  | some e => exact absurd hret e.ret_ne_zero

theorem size_read_byteListFs (flags : OpenFlags) (s : List Byte) (pos : ℤ) (count : ℕ) :
    (byteListFs.read flags s pos count).state.length = s.length :=
  byteListFs.size_read flags s pos count

theorem size_write_byteListFs (flags : OpenFlags) (s : List Byte) (pos : ℤ) (data : List Byte)
    (hneg : (byteListFs.write flags s pos data).ret < 0) :
    (byteListFs.write flags s pos data).state.length = s.length :=
  byteListFs.size_write flags s pos data hneg

/-- A lower file that is a list of bytes and answers attribute changes with `answer`. -/
def answeringFs (answer : Option Errno) : LowerFs (List Byte) where
  maxbytes := byteListFs.maxbytes
  size := List.length
  read := byteListFs.read
  write := byteListFs.write
  notifyChange := notifyAnswered answer
  size_read := size_read_byteListFs
  size_write := size_write_byteListFs
  size_notifyChange := size_notifyAnswered answer

/-- `wrapfs_setattr` on the file, with the answer of the lower `notify_change`. -/
def setattrAnswered (ia : Iattr) (changeOk newsizeOk lowerNotify : Option Errno) (ino : Inode) :
    Inode :=
  let r := wrapfsSetattr (answeringFs lowerNotify) changeOk newsizeOk ia ⟨ino.iSize, ino.pages⟩
    ino.lower
  { ino with
    lower := r.2.2
    iSize := r.2.1.iSize
    pages := r.2.1.pages
    dirty := ino.dirty.filter fun index => (r.2.1.pages index).isSome }

/-- A mount, and what was reported for each file. -/
structure DiskState where
  mount : MountState
  reports : List (ℕ × Report)

def DiskState.start (key : Option Key) (inodes : ℕ → Inode) : DiskState :=
  ⟨.start key inodes, []⟩

/-- Everything that happens to the files of a mount. -/
inductive DiskAction where
  /-- a key ioctl, a step of a write or `wrapfs_writepage` -/
  | mount (a : MountAction)
  | readpage (file index : ℕ) (fd : OpenFile) (c : ReadpageCalls) (stale : Page)
  | evict (file index : ℕ)
  | setattr (file : ℕ) (ia : Iattr) (changeOk newsizeOk lowerNotify : Option Errno)
  | flush (file : ℕ) (fd : OpenFile) (c : WritepageCalls) (lowerFlush : Option ℤ)
  | fsync (file : ℕ) (fd : OpenFile) (c : WritepageCalls) (metadata lowerFsync : Option Errno)

/-- The file a step is about. -/
def MountAction.file (s : MountState) : MountAction → ℕ
  | .writeBegin _ file _ _ _ => file
  | .writeEnd writer _ => (s.writers writer).elim 0 Writer.file
  | .writepage file _ _ => file
  | _ => 0

def DiskState.setInode (s : DiskState) (file : ℕ) (ino : Inode) : DiskState :=
  { s with mount := { s.mount with inodes := Function.update s.mount.inodes file ino } }

/-- One of them.  The inode's mutex, which keeps a size from being set in the middle of a write to
the same file, is not needed for what follows. -/
def diskStep (E : BlockCipher) (md5 : List Byte → Key) (s : DiskState) :
    DiskAction → Except Fault DiskState
  | .mount a =>
      match mountStep E md5 s.mount a with
      | .error fault => .error fault
      | .ok m => .ok
          { mount := m
            reports := s.reports ++
              (m.log.drop s.mount.log.length).map fun r => (a.file s.mount, r) }
  | .readpage file index fd c stale =>
      match vfsReadpage E s.mount.key fd c stale (s.mount.inodes file) index with
      | .error fault => .error fault
      | .ok r => .ok (s.setInode file r.inode)
  | .evict file index => .ok (s.setInode file (evictPage (s.mount.inodes file) index))
  | .setattr file ia changeOk newsizeOk lowerNotify =>
      .ok (s.setInode file
        (setattrAnswered ia changeOk newsizeOk lowerNotify (s.mount.inodes file)))
  | .flush file fd c lowerFlush =>
      match wrapfsFlush c lowerFlush fd (s.mount.inodes file) with
      | .error fault => .error fault
      | .ok (_, ino) => .ok (s.setInode file ino)
  | .fsync file fd c metadata lowerFsync =>
      match wrapfsFsync c metadata lowerFsync fd (s.mount.inodes file) with
      | .error fault => .error fault
      | .ok (_, _, ino) => .ok (s.setInode file ino)

/-! ## The lower file in one operation -/

section Lower

variable {E : BlockCipher} {key : Option Key} {ino ino' : Inode} {index : ℕ}

/-- `wrapfs_write_begin` does not touch the lower file, -/
theorem lower_wrapfsWriteBegin {stale : Option Page} {pos len : ℕ} {ret : ℤ}
    (h : wrapfsWriteBegin key stale ino pos len = .ok (ret, ino')) : ino'.lower = ino.lower := by
  unfold wrapfsWriteBegin at h
  split at h
  · cases h
    rfl
  · split at h
    · cases h
    · cases h
      rfl
    · cases h
      rfl

/-- nor does the user copy, -/
theorem lower_copyFromUser (ino : Inode) (pos : ℕ) (data : List Byte) :
    (copyFromUser ino pos data).lower = ino.lower := by
  unfold copyFromUser
  split
  · rfl
  · rfl

/-- nor does `wrapfs_writepage`. -/
theorem lower_wrapfsWritepage {c : WritepageCalls} {page : CachePage} {ret : ℤ}
    {handed : Option Handed} (h : wrapfsWritepage c ino index page = .ok (ret, ino', handed)) :
    ino'.lower = ino.lower := by
  unfold wrapfsWritepage at h
  split_ifs at h with hup hlower
  · cases h
    rfl
  · simp only [hlower] at h
    cases h

theorem lower_writeCachePage {c : WritepageCalls} {ret : ℤ}
    (h : writeCachePage c ino index = .ok (ret, ino')) : ino'.lower = ino.lower := by
  unfold writeCachePage at h
  split at h
  · cases h
    rfl
  · split at h
    · cases h
    · split at h
      · cases h
      · rename_i hpage
        cases h
        have hkept := lower_wrapfsWritepage hpage
        exact hkept

/-- Writeback stores nothing, over however many pages. -/
theorem lower_writeCachePages {c : WritepageCalls} {indices : List ℕ} {ret : ℤ}
    (h : writeCachePages c indices ino = .ok (ret, ino')) : ino'.lower = ino.lower := by
  induction indices generalizing ino with
  | nil =>
      cases h
      rfl
  | cons index rest ih =>
      unfold writeCachePages at h
      split at h
      · cases h
      · rename_i ret₁ ino₁ hpage
        have hfirst := lower_writeCachePage hpage
        split at h
        · exact (ih h).trans hfirst
        · cases h
          exact hfirst

/-- `wrapfs_flush` stores nothing. -/
theorem lower_wrapfsFlush {c : WritepageCalls} {lowerFlush : Option ℤ} {fd : OpenFile} {ret : ℤ}
    (h : wrapfsFlush c lowerFlush fd ino = .ok (ret, ino')) : ino'.lower = ino.lower := by
  have hpages : ∀ {r : ℤ × Inode}, (if fd.fmodeWrite then writeCachePages c ino.dirty ino
      else .ok (0, ino)) = .ok r → r.2.lower = ino.lower := by
    intro r hr
    split at hr
    · exact lower_writeCachePages hr
    · cases hr
      rfl
  unfold wrapfsFlush at h
  dsimp only at h
  split at h
  · cases h
  · rename_i hwritten
    have hkept := hpages hwritten
    split at h
    · cases h
      exact hkept
    · split at h
      · cases h
      · cases h
        exact hkept
      · cases h
        exact hkept

/-- Neither does `wrapfs_fsync` by itself. -/
theorem lower_wrapfsFsync {c : WritepageCalls} {metadata lowerFsync : Option Errno}
    {fd : OpenFile} {ret : ℤ} {synced : Bool}
    (h : wrapfsFsync c metadata lowerFsync fd ino = .ok (ret, synced, ino')) :
    ino'.lower = ino.lower := by
  unfold wrapfsFsync at h
  split at h
  · cases h
  · rename_i hwritten
    have hkept := lower_writeCachePages hwritten
    split at h
    · cases h
      exact hkept
    · split at h
      · cases h
        exact hkept
      · split at h
        · cases h
        · cases h
        · split at h
          · cases h
            exact hkept
          · cases h
            exact hkept

/-- A page read leaves the lower file alone, on every exit. -/
theorem lower_wrapfsReadpage {fd : OpenFile} {c : ReadpageCalls} {page : CachePage} {r : PageOp}
    (h : wrapfsReadpage E key fd c ino index page = .ok r) : r.inode.lower = ino.lower := by
  unfold wrapfsReadpage at h
  split at h
  · cases h
    rfl
  · split at h
    · cases h
      rfl
    · split at h
      · cases h
        rfl
      · cases h
      · cases h
        rfl

theorem lower_vfsReadpage {fd : OpenFile} {c : ReadpageCalls} {stale : Page} {r : PageOp}
    (h : vfsReadpage E key fd c stale ino index = .ok r) : r.inode.lower = ino.lower := by
  unfold vfsReadpage at h
  split at h
  · cases h
  · exact lower_wrapfsReadpage h

/-- The lower file of an attribute change. -/
theorem lower_setattrAnswered (ia : Iattr) (changeOk newsizeOk lowerNotify : Option Errno)
    (ino : Inode) :
    (setattrAnswered ia changeOk newsizeOk lowerNotify ino).lower = ino.lower ∨
      ∃ n, ia.size = some n ∧ (setattrAnswered ia changeOk newsizeOk lowerNotify ino).lower =
        ino.lower.take n ++ List.replicate (n - ino.lower.length) 0 := by
  unfold setattrAnswered wrapfsSetattr
  cases changeOk with
  | some e => exact Or.inl rfl
  | none =>
      cases hsize : ia.size with
      | none =>
          left
          cases lowerNotify with
          | some e => rfl
          | none => simp [answeringFs, notifyAnswered, byteListFs, hsize]
      | some n =>
          cases newsizeOk with
          | some e => exact Or.inl rfl
          | none =>
              cases lowerNotify with
              | some e => exact Or.inl rfl
              | none => exact Or.inr ⟨n, rfl, by simp [answeringFs, notifyAnswered, byteListFs, hsize]⟩

/-- A lower write at the place it is meant for. -/
theorem vfsWrite_lower (t : Transfer) (lower : List Byte) (pos : ℕ) (buf : List Byte) :
    ∃ n, (vfsWrite t ⟨false⟩ lower pos buf).2 = pwrite 0 lower pos (buf.take n) := by
  cases t with
  | full => exact ⟨buf.length, by rw [List.take_length]; rfl⟩
  | short n => exact ⟨n, rfl⟩
  | fail e => exact ⟨0, rfl⟩

/-- **What `wrapfs_write_end` stores** it has handed over, for the page's own place in the lower
file. -/
theorem lower_wrapfsWriteEnd {fd : OpenFile} {c : WriteEndCalls} {pos copied : ℕ}
    {page : CachePage} {r : WriteEnd}
    (h : wrapfsWriteEnd E key fd c ino pos copied index page = .ok r) :
    (r.handed = none → r.inode.lower = ino.lower) ∧
      ∀ handed, r.handed = some handed → (∀ f, fd.info = some (some f) → f.append = false) →
        ∃ n, r.inode.lower = pwrite 0 ino.lower handed.offset (handed.bytes.take n) := by
  obtain ⟨info, mode⟩ := fd
  rcases info with - | - | f
  · cases h
  · cases h
    exact ⟨fun _ => rfl, fun handed hh => by cases hh⟩
  · have hstore : ∀ buf : List Byte, (∀ f', some (some f) = some (some f') → f'.append = false) →
        ∃ n, (writeEndStore c.write f ino pos copied index page buf).lower =
          pwrite 0 ino.lower (pageStart index) (buf.take n) := by
      intro buf happend
      have hf : f = ⟨false⟩ := by
        have hfalse : f.append = false := happend f rfl
        cases f
        cases hfalse
        rfl
      rw [hf]
      exact vfsWrite_lower c.write ino.lower (pageStart index) buf
    cases key with
    | none =>
        cases h
        refine ⟨fun hh => ?_, fun handed hh happend => ?_⟩
        · cases hh
        · cases hh
          exact hstore _ happend
    | some k =>
        cases halloc : c.allocPage with
        | none =>
            simp only [wrapfsWriteEnd, halloc] at h
            cases h
            exact ⟨fun _ => rfl, fun handed hh => by cases hh⟩
        | some stale =>
            simp only [wrapfsWriteEnd, halloc] at h
            cases h
            refine ⟨fun hh => ?_, fun handed hh happend => ?_⟩
            · cases hh
            · cases hh
              exact hstore _ happend

end Lower

/-! ## One step -/

section Step

variable {E : BlockCipher} {md5 : List Byte → Key}

/-- The writer that ends its write has not opened its file `O_APPEND`. -/
def NoAppend (s : MountState) : MountAction → Prop
  | .writeEnd writer _ => ∀ wr f, s.writers writer = some wr → wr.fd.info = some (some f) →
      f.append = false
  | _ => True

/-- Bytes are reported for a file. -/
def StoredIn (reports : List (ℕ × Report)) (file : ℕ) (keys : List Key) (index : ℕ) (page : Page)
    (handed : Handed) : Prop :=
  ∃ ret, (file, .stored keys index page ret (some handed)) ∈ reports

/-- What a step does to one lower file, with the reports it makes: nothing, or it stores bytes it
reports. -/
def StepLower (noAppend : Prop) (reports : List (ℕ × Report)) (file : ℕ)
    (lower lower' : List Byte) : Prop :=
  lower' = lower ∨ ∃ keys index page handed, StoredIn reports file keys index page handed ∧
    (noAppend → ∃ n, lower' = pwrite 0 lower handed.offset (handed.bytes.take n))

/-- One inode is replaced by one with the same lower file. -/
theorem lower_update {inodes : ℕ → Inode} {file : ℕ} {ino : Inode}
    (h : ino.lower = (inodes file).lower) (file' : ℕ) :
    (Function.update inodes file ino file').lower = (inodes file').lower := by
  by_cases hfile : file' = file
  · subst hfile
    rw [Function.update_self, h]
  · rw [Function.update_of_ne hfile]

/-- **All that a step of a write, an ioctl or a writeback does to the lower files.** -/
theorem mountStep_lower {s s' : MountState} {a : MountAction} (h : mountStep E md5 s a = .ok s') :
    ∃ rs, s'.log = s.log ++ rs ∧ ∀ file, StepLower (NoAppend s a)
      (rs.map fun r => (a.file s, r)) file (s.inodes file).lower (s'.inodes file).lower := by
  cases a with
  | ioctl c cmd =>
      simp only [mountStep, ioctlStep] at h
      split at h
      · cases h
      · cases h
        exact ⟨[], (List.append_nil _).symm, fun _ => Or.inl rfl⟩
  | writeBegin writer file fd extent stale =>
      simp only [mountStep, writeBeginStep] at h
      split at h
      · cases h
      · split at h
        · cases h
        · rename_i hbegin
          cases h
          exact ⟨_, rfl, fun file' => Or.inl (lower_update (lower_wrapfsWriteBegin hbegin) file')⟩
  | userCopy writer data =>
      simp only [mountStep, userCopyStep] at h
      split at h
      · cases h
      · cases h
        exact ⟨[], (List.append_nil _).symm,
          fun file' => Or.inl (lower_update (lower_copyFromUser _ _ _) file')⟩
  | writeEnd writer c =>
      simp only [mountStep, writeEndStep] at h
      split at h
      · cases h
      · rename_i wr hwr
        split at h
        · cases h
        · rename_i page hpage
          split at h
          · cases h
          · rename_i r hr
            cases h
            obtain ⟨hnone, hsome⟩ := lower_wrapfsWriteEnd hr
            refine ⟨_, rfl, fun file' => ?_⟩
            cases hhanded : r.handed with
            | none => exact Or.inl (lower_update (hnone hhanded) file')
            | some handed =>
                by_cases hfile : file' = wr.file
                · subst hfile
                  refine Or.inr ⟨wr.keys, wr.extent.index, page.data, handed, ⟨r.ret, ?_⟩,
                    fun happend => ?_⟩
                  · simp [MountAction.file, hwr]
                  · obtain ⟨n, hn⟩ := hsome handed hhanded fun f => happend wr f hwr
                    exact ⟨n, by simpa only [Function.update_self] using hn⟩
                · left
                  simp only [Function.update_of_ne hfile]
  | writepage file index c =>
      simp only [mountStep, writepageStep] at h
      split at h
      · cases h
        exact ⟨[], (List.append_nil _).symm, fun _ => Or.inl rfl⟩
      · split at h
        · cases h
        · split at h
          · cases h
          · rename_i hpage
            cases h
            exact ⟨_, rfl, fun file' => Or.inl (lower_update (lower_wrapfsWritepage hpage) file')⟩

/-- The same of any step. -/
def DiskAction.NoAppend (s : DiskState) : DiskAction → Prop
  | .mount a => Wrapfs.NoAppend s.mount a
  | _ => True

/-- The step sets the size of the file. -/
def DiskAction.SetsSize (file n : ℕ) : DiskAction → Prop
  | .setattr file' ia _ _ _ => file' = file ∧ ia.size = some n
  | _ => False

/-- One inode is replaced by one with the same lower file. -/
theorem lower_setInode {s : DiskState} {file : ℕ} {ino : Inode}
    (h : ino.lower = (s.mount.inodes file).lower) (file' : ℕ) :
    ((s.setInode file ino).mount.inodes file').lower = (s.mount.inodes file').lower :=
  lower_update h file'

/-- What a step does to one lower file: it sets its size, or stores bytes it reports, or leaves it
alone. -/
def DiskLower (s s' : DiskState) (a : DiskAction) (rs : List (ℕ × Report)) (file : ℕ) : Prop :=
  (∃ n, a.SetsSize file n ∧ (s'.mount.inodes file).lower =
      (s.mount.inodes file).lower.take n ++
        List.replicate (n - (s.mount.inodes file).lower.length) 0) ∨
    StepLower (a.NoAppend s) rs file (s.mount.inodes file).lower (s'.mount.inodes file).lower

/-- **All that a step does to the lower files.** -/
theorem diskStep_lower {s s' : DiskState} {a : DiskAction} (h : diskStep E md5 s a = .ok s') :
    ∃ rs, s'.reports = s.reports ++ rs ∧ ∀ file, DiskLower s s' a rs file := by
  -- a step that keeps the lower files and reports nothing
  have hkeeps : ∀ {file : ℕ} {ino : Inode}, ino.lower = (s.mount.inodes file).lower →
      s.setInode file ino = s' →
      ∃ rs, s'.reports = s.reports ++ rs ∧ ∀ file, DiskLower s s' a rs file := by
    rintro file ino hlower rfl
    exact ⟨[], (List.append_nil _).symm, fun file' => Or.inr (Or.inl (lower_setInode hlower file'))⟩
  cases a with
  | mount a =>
      simp only [diskStep] at h
      split at h
      · cases h
      · rename_i m hm
        cases h
        obtain ⟨rs, hlog, hlower⟩ := mountStep_lower hm
        refine ⟨rs.map fun r => (a.file s.mount, r), ?_, fun file => Or.inr (hlower file)⟩
        simp only [hlog, List.drop_left]
  | readpage file index fd c stale =>
      simp only [diskStep] at h
      split at h
      · cases h
      · rename_i r hr
        exact hkeeps (lower_vfsReadpage hr) (Except.ok.inj h)
  | evict file index => exact hkeeps (evictPage_lower _ index) (Except.ok.inj h)
  | setattr file ia changeOk newsizeOk lowerNotify =>
      obtain rfl := Except.ok.inj h
      rcases lower_setattrAnswered ia changeOk newsizeOk lowerNotify (s.mount.inodes file) with
        hsame | ⟨n, hsize, hsized⟩
      · exact hkeeps hsame rfl
      · refine ⟨[], (List.append_nil _).symm, fun file' => ?_⟩
        by_cases hfile : file' = file
        · subst hfile
          refine Or.inl ⟨n, ⟨rfl, hsize⟩, ?_⟩
          simp only [DiskState.setInode, Function.update_self, hsized]
        · right
          left
          simp only [DiskState.setInode, Function.update_of_ne hfile]
  | flush file fd c lowerFlush =>
      simp only [diskStep] at h
      split at h
      · cases h
      · rename_i hflush
        exact hkeeps (lower_wrapfsFlush hflush) (Except.ok.inj h)
  | fsync file fd c metadata lowerFsync =>
      simp only [diskStep] at h
      split at h
      · cases h
      · rename_i hfsync
        exact hkeeps (lower_wrapfsFsync hfsync) (Except.ok.inj h)

end Step

/-! ## Runs -/

section Run

variable {E : BlockCipher} {md5 : List Byte → Key} {s s' : DiskState} {as : List DiskAction}

/-- Reports stay. -/
theorem reports_subset_of_run (hrun : run (diskStep E md5) s as = .ok s') :
    s.reports ⊆ s'.reports := by
  induction as generalizing s with
  | nil =>
      cases hrun
      exact List.Subset.refl _
  | cons a as ih =>
      obtain ⟨s₁, hstep, hrest⟩ := run_cons_eq_ok.mp hrun
      obtain ⟨rs, hreports, -⟩ := diskStep_lower hstep
      refine List.Subset.trans ?_ (ih hrest)
      rw [hreports]
      exact List.subset_append_left _ _

/-- A file that is left alone by every step. -/
theorem lower_eq_of_run {file : ℕ} (hrun : run (diskStep E md5) s as = .ok s')
    (hsize : ∀ a ∈ as, ∀ n, ¬ a.SetsSize file n)
    (hreports : ∀ keys index page handed, ¬ StoredIn s'.reports file keys index page handed) :
    (s'.mount.inodes file).lower = (s.mount.inodes file).lower := by
  induction as generalizing s with
  | nil =>
      cases hrun
      rfl
  | cons a as ih =>
      obtain ⟨s₁, hstep, hrest⟩ := run_cons_eq_ok.mp hrun
      obtain ⟨rs, hrs, hlower⟩ := diskStep_lower hstep
      rw [ih hrest fun a' ha' => hsize a' (List.mem_cons_of_mem a ha')]
      rcases hlower file with ⟨n, hsets, -⟩ | hsame | ⟨keys, index, page, handed, ⟨ret, hmem⟩, -⟩
      · exact absurd hsets (hsize a List.mem_cons_self n)
      · exact hsame
      · refine absurd ⟨ret, reports_subset_of_run hrest ?_⟩ (hreports keys index page handed)
        rw [hrs]
        exact List.mem_append_right _ hmem

/-- **Only reported bytes are stored.**  In every run, a lower file that has had no size set and for
which no bytes were reported is as it was, whatever was copied into the page cache, written back,
flushed or synced. -/
theorem lower_unchanged_unless_stored (E : BlockCipher) (md5 : List Byte → Key) (key : Option Key)
    (inodes : ℕ → Inode) {file : ℕ} (hrun : run (diskStep E md5) (.start key inodes) as = .ok s')
    (hsize : ∀ a ∈ as, ∀ n, ¬ a.SetsSize file n)
    (hreports : ∀ keys index page handed, ¬ StoredIn s'.reports file keys index page handed) :
    (s'.mount.inodes file).lower = (inodes file).lower :=
  lower_eq_of_run hrun hsize hreports

end Run

/-- A byte is written over the first of a file of one byte; no scratch page can be had at the end of
the write.  Then the file is synced. -/
def unstoredWrite : List DiskAction :=
  beginWrite.map .mount ++
    [.mount (.writeEnd 0 ⟨none, .succeed, .full⟩), .fsync 0 .plain ⟨true, false, 0⟩ none none]

/-- The page cache has the new byte, the lower file has the old one. -/
theorem lower_unchanged_unless_stored_no_memory :
    ∃ s', run (diskStep (constCipher 1) fun _ => zeroKey)
        (.start (some zeroKey) fun _ => .fresh [98]) unstoredWrite = .ok s' ∧
      ((s'.mount.inodes 0).pages 0).map (fun page => page.data 0) = some 97 ∧
      (s'.mount.inodes 0).lower = [98] := by
  obtain ⟨s', hrun, hpage, hreports⟩ : ∃ s', run (diskStep (constCipher 1) fun _ => zeroKey)
      (.start (some zeroKey) fun _ => .fresh [98]) unstoredWrite = .ok s' ∧
      ((s'.mount.inodes 0).pages 0).map (fun page => page.data 0) = some 97 ∧
      ∃ page, s'.reports = [(0, .began (some zeroKey) 0), (0, .stored [zeroKey] 0 page 0 none)] :=
    ⟨_, rfl, rfl, _, rfl⟩
  refine ⟨s', hrun, hpage, ?_⟩
  refine lower_unchanged_unless_stored _ _ _ _ hrun (fun a ha n => ?_) ?_
  · simp only [unstoredWrite, beginWrite, List.map_cons, List.map_nil, List.cons_append,
      List.nil_append, List.mem_cons, List.not_mem_nil, or_false] at ha
    rcases ha with rfl | rfl | rfl | rfl <;> exact id
  · rintro keys index page handed ⟨ret, hmem⟩
    obtain ⟨page', hreports⟩ := hreports
    simp [hreports] at hmem

section Encrypted

variable {E : BlockCipher} {md5 : List Byte → Key}

/-- Where a byte of a lower file may come from: it was there, it is a zero that was filled in, or it
is the encryption of a byte of a page of the file, at that byte's place, under a key that was set
during the write. -/
def Origin (E : BlockCipher) (start : List Byte) (reports : List (ℕ × Report)) (file j : ℕ)
    (b : Byte) : Prop :=
  start[j]? = some b ∨ b = 0 ∨ ∃ keys index page handed,
    StoredIn reports file keys index page handed ∧
      ∃ k ∈ keys, ∃ i : Fin pageCacheSize, j = pageStart index + i.val ∧
        b = cipherByte E k i.val (page i)

/-- Later reports do not take back an origin. -/
theorem Origin.mono {start : List Byte} {reports reports' : List (ℕ × Report)} {file j : ℕ}
    {b : Byte} (h : Origin E start reports file j b) (hsub : reports ⊆ reports') :
    Origin E start reports' file j b := by
  rcases h with h | h | ⟨keys, index, page, handed, ⟨ret, hmem⟩, hb⟩
  · exact Or.inl h
  · exact Or.inr (Or.inl h)
  · exact Or.inr (Or.inr ⟨keys, index, page, handed, ⟨ret, hsub hmem⟩, hb⟩)

/-- Whenever `wrapfs_write_end` runs, it finds a key and a cipher that works, and writes at the
page's place. -/
def DiskAction.Encrypts (s : DiskState) : DiskAction → Prop
  | .mount a => EncryptsAtEnd s.mount a ∧ Wrapfs.NoAppend s.mount a
  | _ => True

/-- What every step keeps. -/
structure DiskInv (E : BlockCipher) (inodes : ℕ → Inode) (s : DiskState) : Prop where
  mount : MountInv E s.mount
  reports : ∀ fr ∈ s.reports, Protected E fr.2
  origin : ∀ file j b, (s.mount.inodes file).lower[j]? = some b →
    Origin E (inodes file).lower s.reports file j b

variable {inodes : ℕ → Inode} {s s' : DiskState} {a : DiskAction}

/-- The writes in progress and the reports after a step. -/
theorem DiskInv.step_reports (hs : DiskInv E inodes s) (henc : a.Encrypts s)
    (h : diskStep E md5 s a = .ok s') :
    MountInv E s'.mount ∧ ∀ fr ∈ s'.reports, Protected E fr.2 := by
  -- the other steps change inodes, which `MountInv` does not speak of
  have hkeeps : ∀ {file : ℕ} {ino : Inode}, s.setInode file ino = s' →
      MountInv E s'.mount ∧ ∀ fr ∈ s'.reports, Protected E fr.2 := by
    rintro file ino rfl
    exact ⟨⟨hs.mount.keys, hs.mount.copied, hs.mount.log⟩, hs.reports⟩
  cases a with
  | mount a =>
      simp only [diskStep] at h
      split at h
      · cases h
      · rename_i m hm
        cases h
        have hinv := hs.mount.step henc.1 hm
        refine ⟨hinv, fun fr hfr => ?_⟩
        rcases List.mem_append.mp hfr with hold | hnew
        · exact hs.reports fr hold
        · obtain ⟨r, hr, rfl⟩ := List.mem_map.mp hnew
          exact hinv.log r (List.mem_of_mem_drop hr)
  | readpage file index fd c stale =>
      simp only [diskStep] at h
      split at h
      · cases h
      · exact hkeeps (Except.ok.inj h)
  | evict file index => exact hkeeps (Except.ok.inj h)
  | setattr file ia changeOk newsizeOk lowerNotify => exact hkeeps (Except.ok.inj h)
  | flush file fd c lowerFlush =>
      simp only [diskStep] at h
      split at h
      · cases h
      · exact hkeeps (Except.ok.inj h)
  | fsync file fd c metadata lowerFsync =>
      simp only [diskStep] at h
      split at h
      · cases h
      · exact hkeeps (Except.ok.inj h)

/-- A byte after its file's size is set. -/
theorem getElem?_sized {lower : List Byte} {n j : ℕ} {b : Byte}
    (h : (lower.take n ++ List.replicate (n - lower.length) 0)[j]? = some b) :
    lower[j]? = some b ∨ b = 0 := by
  rcases Nat.lt_or_ge j (lower.take n).length with hj | hj
  · rw [List.getElem?_append_left hj, List.getElem?_take] at h
    split at h
    · exact Or.inl h
    · cases h
  · rw [List.getElem?_append_right hj, List.getElem?_replicate] at h
    split at h
    · exact Or.inr (Option.some.inj h).symm
    · cases h

/-- Reported bytes, when the report is protected. -/
theorem origin_of_handed {start : List Byte} {reports : List (ℕ × Report)} {file : ℕ}
    {keys : List Key} {index : ℕ} {page : Page} {handed : Handed}
    (hprot : ∀ fr ∈ reports, Protected E fr.2)
    (hstored : StoredIn reports file keys index page handed) {i : ℕ} {b : Byte}
    (hb : handed.bytes[i]? = some b) : Origin E start reports file (handed.offset + i) b := by
  obtain ⟨ret, hmem⟩ := hstored
  obtain ⟨hoff, hlen, k, hk, hbytes⟩ : EncryptionOf E keys index page handed := hprot _ hmem
  have hi : i < handed.bytes.length := by
    by_contra hge
    rw [List.getElem?_eq_none (Nat.le_of_not_lt hge)] at hb
    cases hb
  have hin : i < pageCacheSize := lt_of_lt_of_le hi hlen
  refine Or.inr (Or.inr ⟨keys, index, page, handed, ⟨ret, hmem⟩, k, hk, ⟨i, hin⟩, by rw [hoff], ?_⟩)
  exact Option.some.inj (hb.symm.trans (hbytes ⟨i, hin⟩ hi))

/-- **One step.** -/
theorem DiskInv.step (hs : DiskInv E inodes s) (henc : a.Encrypts s)
    (h : diskStep E md5 s a = .ok s') : DiskInv E inodes s' := by
  obtain ⟨hmount, hprot⟩ := hs.step_reports henc h
  refine ⟨hmount, hprot, fun file j b hb => ?_⟩
  obtain ⟨rs, hrs, hlower⟩ := diskStep_lower h
  have hsub : s.reports ⊆ s'.reports := by
    rw [hrs]
    exact List.subset_append_left _ _
  rcases hlower file with ⟨n, -, hsized⟩ | hsame | ⟨keys, index, page, handed, ⟨ret, hmem⟩, hstored⟩
  · rw [hsized] at hb
    rcases getElem?_sized hb with hold | hzero
    · exact (hs.origin file j b hold).mono hsub
    · exact Or.inr (Or.inl hzero)
  · rw [hsame] at hb
    exact (hs.origin file j b hb).mono hsub
  · have hnoAppend : a.NoAppend s := by
      cases a with
      | mount a => exact henc.2
      | _ => trivial
    obtain ⟨n, hpwrite⟩ := hstored hnoAppend
    rw [hpwrite] at hb
    rcases getElem?_pwrite_eq_some 0 hb with hold | hzero | ⟨i, rfl, hi⟩
    · exact (hs.origin file j b hold).mono hsub
    · exact Or.inr (Or.inl hzero)
    · have hin : StoredIn s'.reports file keys index page handed := by
        refine ⟨ret, ?_⟩
        rw [hrs]
        exact List.mem_append_right _ hmem
      refine origin_of_handed hprot hin ?_
      rw [List.getElem?_take] at hi
      split at hi
      · exact hi
      · cases hi

/-- **The lower files hold only what was encrypted.**  In every run of key ioctls, steps of any
number of writers, reads, evictions, writebacks, flushes, syncs and attribute changes on any number
of files, in which every `wrapfs_write_end` finds a key and a cipher that works on a file not opened
`O_APPEND`: a byte of a lower file was there at the start, is a filled-in zero, or is the encryption
of the byte at its place in a page that a `wrapfs_write_end` on that file was called with, under a
key that was set during that write. -/
theorem lower_bytes_encrypted (E : BlockCipher) (md5 : List Byte → Key) (key : Option Key)
    (inodes : ℕ → Inode) {as : List DiskAction} {s' : DiskState}
    (henc : Along (diskStep E md5) (fun s a => a.Encrypts s) (.start key inodes) as)
    (hrun : run (diskStep E md5) (.start key inodes) as = .ok s') (file j : ℕ) (b : Byte)
    (hb : (s'.mount.inodes file).lower[j]? = some b) :
    Origin E (inodes file).lower s'.reports file j b := by
  have hstart : DiskInv E inodes (.start key inodes) := by
    refine ⟨MountInv.start E key inodes, fun fr hfr => ?_, fun file j b hb => Or.inl hb⟩
    cases hfr
  have hinv : DiskInv E inodes s' :=
    henc.invariant (fun _ _ _ hc hi hs => hi.step hc hs) hstart hrun
  exact hinv.origin file j b hb

end Encrypted

/-- A byte is written, with a change of key in between, and the file is synced and its page
evicted. -/
def storedWrite : List DiskAction :=
  beginWrite.map .mount ++
    [.mount (.ioctl (.succeed [97]) (.setekey 1)), .mount endWrite,
      .fsync 0 .plain ⟨true, false, 0⟩ none none, .evict 0 0]

/-- The byte in the lower file is not the byte written. -/
theorem lower_bytes_encrypted_one_write :
    ∃ s', run (diskStep (constCipher 1) fun _ => zeroKey)
        (.start (some zeroKey) fun _ => emptyInode) storedWrite = .ok s' ∧
      (s'.mount.inodes 0).lower[0]? = some 96 ∧
      Origin (constCipher 1) [] s'.reports 0 0 96 := by
  obtain ⟨s', hrun⟩ : ∃ s', run (diskStep (constCipher 1) fun _ => zeroKey)
      (.start (some zeroKey) fun _ => emptyInode) storedWrite = .ok s' := ⟨_, rfl⟩
  have hbyte : (s'.mount.inodes 0).lower[0]? = some 96 := by
    have hany : (run (diskStep (constCipher 1) fun _ => zeroKey)
        (.start (some zeroKey) fun _ => emptyInode) storedWrite).toOption.map
          (fun s => (s.mount.inodes 0).lower[0]?) = some (some 96) := by decide +kernel
    rw [hrun] at hany
    exact Option.some.inj hany
  refine ⟨s', hrun, hbyte, lower_bytes_encrypted _ _ _ (fun _ => emptyInode) ?_ hrun 0 0 96 hbyte⟩
  refine ⟨⟨trivial, trivial⟩, fun s₁ h₁ => ⟨⟨trivial, trivial⟩, fun s₂ h₂ => ⟨⟨trivial, trivial⟩,
    fun s₃ h₃ => ⟨?_, fun s₄ h₄ => ⟨trivial, fun s₅ h₅ => ⟨trivial, fun _ _ => trivial⟩⟩⟩⟩⟩⟩
  cases h₁
  cases h₂
  cases h₃
  refine ⟨⟨Option.some_ne_none _, Or.inr rfl⟩, fun wr f hwr hf => ?_⟩
  cases hwr
  cases hf
  rfl

end Wrapfs
