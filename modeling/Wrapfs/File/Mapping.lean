import Wrapfs.AddressSpace.FileIo

/-!
# Mappings (`wrapfs_mmap`, `wrapfs_fault`)

A process that maps a file sees it through page faults, and which handler serves a fault is
decided by the `vm_ops` that `wrapfs_mmap` leaves in the area.  Without the `mmap` mount option
that is `wrapfs_vm_ops`, whose handler `wrapfs_fault` passes the fault to the lower file system's,
saved when the file was first mapped.  With the option it is NULL: the kernel then takes the area
for anonymous memory and serves a page of zeros.

## The first mapping of a file

The lower handler has to come from somewhere.  On the first mapping of an open file `wrapfs_mmap`
lets the lower `->mmap` map the area, takes the operations that are then in it, and unmaps the
area again; later mappings of the same open file find them saved in `wrapfs_file_info`.  A failure
on the way saves nothing and the kernel drops the area, so the next mapping is again a first one
(`wrapfsMmap_cases`).  `VmOps` has just the two tables an area can have; that `wrapfs_vm_ops` are
never the ones that are saved is part of the invariant, and `wrapfsFault` says what would happen
otherwise.

## The invariant

`mmapStep` is one `mmap` call on any open file, with any answers of the lower calls.
`MappingsInv` holds after every run of it (`mappingsInv_mmapRun`): each area has the operations of
its mount mode, and the file of each area has its lower operations saved, so that `wrapfs_fault`
never finds NULL there.

## The two views

`mapped_eq_read_iff` compares what a mapping shows with what `read` returns.  Without the option
they are equal, for the first mapping of an open file and for every later one; with it they are
equal only where the file reads as zeros.

Only faults that read are compared.  With the option, what a process writes through a mapping goes
to anonymous memory, and no page of the file is involved.  Pages locked by someone else are
excluded, because a `read` would wait there; and without the option the sizes of the two levels
are taken to be equal, which `Wrapfs.File.PassThrough` shows for runs from the mount.
-/

namespace Wrapfs

open CounterMode Ledger ByteStore Runs

/-! ## The operations -/

/-- The `vm_operations_struct`s an area of a wrapfs file can have: the one the lower
`->mmap` installs, and `wrapfs_vm_ops`. -/
inductive VmOps where
  | lower
  | wrapfs
  deriving DecidableEq

/-- A memory area of a mapping. -/
structure Vma where
  /-- the open file mapped -/
  fd : ℕ
  /-- both `VM_SHARED` and `VM_WRITE` are set -/
  sharedWrite : Bool
  vmOps : Option VmOps
  canNonlinear : Bool

/-- The answers `wrapfs_mmap` gets: whether the lower file has a `->writepage`, what
the lower `->mmap` and `do_munmap` return. -/
structure MmapCalls where
  lowerWritepage : Bool
  lowerMmap : Option Errno
  munmap : Option Errno

/-- What `wrapfs_mmap` leaves behind; `lowerVmOps` is the field of the
`wrapfs_file_info`. -/
structure MmapResult where
  ret : ℤ
  lowerVmOps : Option VmOps
  vma : Vma

/-- The part of `wrapfs_mmap` after the lower `vm_ops` have been found. -/
def finishMmap (aopsEnabled : Bool) (lowerVmOps savedVmOps : Option VmOps) (vma : Vma) :
    MmapResult where
  ret := 0
  lowerVmOps := if lowerVmOps = none then savedVmOps else lowerVmOps
  vma := { vma with
    vmOps := if aopsEnabled then none else some .wrapfs
    canNonlinear := true }

/-- `wrapfs_mmap(file, vma)`. -/
def wrapfsMmap (aopsEnabled : Bool) (c : MmapCalls) (lowerVmOps : Option VmOps) (vma : Vma) :
    MmapResult :=
  if vma.sharedWrite && !c.lowerWritepage then ⟨Errno.EINVAL.ret, lowerVmOps, vma⟩
  else if lowerVmOps = none then
    match c.lowerMmap with
    | some e => ⟨e.ret, lowerVmOps, vma⟩
    | none =>
        -- the lower `->mmap` has installed its own operations in the area
        match c.munmap with
        | some e => ⟨e.ret, lowerVmOps, { vma with vmOps := some .lower }⟩
        | none => finishMmap aopsEnabled lowerVmOps (some .lower) vma
  else finishMmap aopsEnabled lowerVmOps none vma

/-- The lower file system's fault handler: the page of the lower file, zero past its
end; `none` is `VM_FAULT_SIGBUS`. -/
def lowerFault (lower : List Byte) (index : ℕ) : Option Page :=
  if pageStart index < lower.length then
    some (storeBytes (fun _ => 0) 0 (pread lower (pageStart index) pageCacheSize))
  else none

/-- `wrapfs_fault(vma, vmf)`, for a file whose saved operations are `lowerVmOps`. -/
def wrapfsFault (lowerVmOps : Option VmOps) (lower : List Byte) (index : ℕ) :
    Except Fault (Option Page) :=
  match lowerVmOps with
  | none => .error .bugOn
  | some .lower => .ok (lowerFault lower index)
  -- `wrapfs_vm_ops` are never saved; their handler would call itself
  | some .wrapfs => .error .blocked

/-- How the kernel serves a fault. -/
def handleFault (lowerVmOps : Option VmOps) (lower : List Byte) (vma : Vma) (index : ℕ) :
    Except Fault (Option Page) :=
  match vma.vmOps with
  | none => .ok (some fun _ => 0)
  | some .lower => .ok (lowerFault lower index)
  | some .wrapfs => wrapfsFault lowerVmOps lower index

/-! ## Sequences of mappings -/

/-- One `mmap` of open file `fd`. -/
structure MmapCall where
  fd : ℕ
  sharedWrite : Bool
  calls : MmapCalls

/-- The saved operations of each open file, and the areas mapped. -/
structure Mappings where
  lowerVmOps : ℕ → Option VmOps
  vmas : List Vma

/-- The kernel sets up a fresh area, calls `wrapfs_mmap`, and drops the area if that
fails. -/
def mmapStep (aopsEnabled : Bool) (s : Mappings) (m : MmapCall) : Mappings :=
  let r := wrapfsMmap aopsEnabled m.calls (s.lowerVmOps m.fd) ⟨m.fd, m.sharedWrite, none, false⟩
  { lowerVmOps := Function.update s.lowerVmOps m.fd r.lowerVmOps
    vmas := if r.ret = 0 then r.vma :: s.vmas else s.vmas }

/-- A sequence of `mmap` calls on files just opened. -/
def mmapRun (aopsEnabled : Bool) (ms : List MmapCall) : Mappings :=
  ms.foldl (mmapStep aopsEnabled) ⟨fun _ => none, []⟩

/-- What holds of the mappings: only the lower operations are ever saved, and every
area has the operations of its mount mode and a file whose lower operations are
saved. -/
structure MappingsInv (aopsEnabled : Bool) (s : Mappings) : Prop where
  saved : ∀ fd, s.lowerVmOps fd = none ∨ s.lowerVmOps fd = some .lower
  vmOps : ∀ vma ∈ s.vmas, vma.vmOps = if aopsEnabled then none else some .wrapfs
  mapped : ∀ vma ∈ s.vmas, s.lowerVmOps vma.fd = some .lower

/-- **All that `wrapfs_mmap` can do**, given that only the lower operations are saved:
fail and save nothing, or succeed with the mode's operations in the area and the
lower ones saved. -/
theorem wrapfsMmap_cases (aopsEnabled : Bool) (c : MmapCalls) {lowerVmOps : Option VmOps}
    (hsaved : lowerVmOps = none ∨ lowerVmOps = some .lower) (vma : Vma) :
    ((wrapfsMmap aopsEnabled c lowerVmOps vma).ret ≠ 0 ∧
        (wrapfsMmap aopsEnabled c lowerVmOps vma).lowerVmOps = lowerVmOps) ∨
      ((wrapfsMmap aopsEnabled c lowerVmOps vma).ret = 0 ∧
        (wrapfsMmap aopsEnabled c lowerVmOps vma).lowerVmOps = some .lower ∧
        (wrapfsMmap aopsEnabled c lowerVmOps vma).vma.fd = vma.fd ∧
        (wrapfsMmap aopsEnabled c lowerVmOps vma).vma.vmOps =
          if aopsEnabled then none else some .wrapfs) := by
  by_cases hwrite : (vma.sharedWrite && !c.lowerWritepage) = true
  · left
    simp only [wrapfsMmap, hwrite, if_true]
    exact ⟨Errno.ret_ne_zero _, trivial⟩
  · rcases hsaved with rfl | rfl
    · cases hlower : c.lowerMmap with
      | some e =>
          left
          simp only [wrapfsMmap, hwrite, Bool.false_eq_true, if_false, if_true, hlower]
          exact ⟨e.ret_ne_zero, trivial⟩
      | none =>
          cases hunmap : c.munmap with
          | some e =>
              left
              simp only [wrapfsMmap, hwrite, Bool.false_eq_true, if_false, if_true, hlower,
                hunmap]
              exact ⟨e.ret_ne_zero, trivial⟩
          | none =>
              right
              simp only [wrapfsMmap, hwrite, Bool.false_eq_true, if_false, if_true, hlower,
                hunmap, finishMmap, and_self]
    · right
      simp [wrapfsMmap, hwrite, finishMmap]

/-- One `mmap` call keeps the invariant, whether it succeeds or not. -/
theorem MappingsInv.step {aopsEnabled : Bool} {s : Mappings} (h : MappingsInv aopsEnabled s)
    (m : MmapCall) : MappingsInv aopsEnabled (mmapStep aopsEnabled s m) := by
  have hupdate : ∀ {v : Option VmOps} {fd : ℕ}, v = some .lower →
      s.lowerVmOps fd = some .lower →
      Function.update s.lowerVmOps m.fd v fd = some .lower := by
    intro v fd hv hfd
    by_cases hself : fd = m.fd
    · subst hself
      rw [Function.update_self, hv]
    · rw [Function.update_of_ne hself, hfd]
  rcases wrapfsMmap_cases aopsEnabled m.calls (h.saved m.fd)
    ⟨m.fd, m.sharedWrite, none, false⟩ with ⟨hret, hsaved⟩ | ⟨hret, hsaved, hfd, hops⟩
  · -- a failing call leaves the mappings as they were
    have hsame : mmapStep aopsEnabled s m = s := by
      unfold mmapStep
      simp only [hret, if_false, hsaved]
      rw [Function.update_eq_self]
    rw [hsame]
    exact h
  · refine ⟨fun fd => ?_, fun vma hvma => ?_, fun vma hvma => ?_⟩
    · by_cases hself : fd = m.fd
      · subst hself
        right
        simp only [mmapStep, Function.update_self, hsaved]
      · simp only [mmapStep, Function.update_of_ne hself]
        exact h.saved fd
    · simp only [mmapStep, hret, if_true] at hvma
      rcases List.mem_cons.mp hvma with rfl | hold
      · exact hops
      · exact h.vmOps vma hold
    · simp only [mmapStep, hret, if_true] at hvma
      rcases List.mem_cons.mp hvma with rfl | hold
      · simp only [mmapStep, hfd, Function.update_self, hsaved]
      · exact hupdate hsaved (h.mapped vma hold)

/-- **Every mapping of a run** has the operations of its mode. -/
theorem mappingsInv_mmapRun (aopsEnabled : Bool) (ms : List MmapCall) :
    MappingsInv aopsEnabled (mmapRun aopsEnabled ms) := by
  induction ms using List.reverseRecOn with
  | nil =>
      refine ⟨fun _ => Or.inl rfl, fun vma hvma => ?_, fun vma hvma => ?_⟩
      · cases hvma
      · cases hvma
  | append_singleton ms m ih =>
      rw [mmapRun, List.foldl_append]
      exact ih.step m

/-! ## The two views -/

/-- The byte a mapping shows at file offset `off`, if it shows any. -/
def mappedByte (s : Mappings) (lower : List Byte) (vma : Vma) (off : ℕ) : Option Byte :=
  match handleFault (s.lowerVmOps vma.fd) lower vma (pageIndex off) with
  | .ok (some page) => some (page ⟨pageOffset off, pageOffset_lt off⟩)
  | _ => none

/-- The byte `read` returns at file offset `off`, if it returns any: through the page
cache in an aops mount, through `wrapfs_read` otherwise. -/
def readByte (E : BlockCipher) (k : Key) (aopsEnabled : Bool) (scratch stale : ℕ → Page)
    (ino : Inode) (off : ℕ) : Option Byte :=
  if aopsEnabled then
    match readFile E (some k) .plain (fun i => .succeed (scratch i)) stale ino off 1 with
    | .ok (_, bytes, _) => bytes.head?
    | .error _ => none
  else
    match vfsRead .full ino.lower off 1 with
    | .ok bytes => bytes.head?
    | .error _ => none

/-- What the page cache shows at file offset `off`: the cached byte if its page is
uptodate, otherwise the decrypted lower byte. -/
def shownByte (E : BlockCipher) (k : Key) (scratch : ℕ → Page) (ino : Inode) (off : ℕ) :
    Byte :=
  shownPage E k ino (pageIndex off) (scratch (pageIndex off))
    ⟨pageOffset off, pageOffset_lt off⟩

section Views

variable {E : BlockCipher} {k : Key} {scratch stale : ℕ → Page} {ino : Inode} {off : ℕ}

/-- `read` in an aops mount. -/
theorem readByte_aops (hfree : Unlocked ino (pageIndex off)) (hoff : off < ino.iSize) :
    readByte E k true scratch stale ino off = some (shownByte E k scratch ino off) := by
  obtain ⟨ino', hread, hino'⟩ := readCachePage_eq (E := E) (k := k) OpenFile.plain_info hfree
    (scratch (pageIndex off)) (stale (pageIndex off))
  have hsize : ino'.iSize = ino.iSize := by
    rcases hino' with rfl | ⟨refs, rfl⟩
    · rfl
    · rfl
  have hin := pageOffset_lt off
  have hnr : ¬ min (pageCacheSize - pageOffset off) (ino.iSize - off) = 0 := by omega
  have hone : min (min (pageCacheSize - pageOffset off) (ino.iSize - off)) 1 = 1 := by omega
  simp only [readByte, if_true, readFile, genericFileRead, Nat.one_ne_zero, if_false, hread,
    hsize, hnr, hone, List.nil_append]
  simp [pageBytes, shownByte, hin]

/-- `read` in a mount without aops. -/
theorem readByte_passThrough (E : BlockCipher) (k : Key) (scratch stale : ℕ → Page)
    (ino : Inode) (off : ℕ) :
    readByte E k false scratch stale ino off = ino.lower[off]? := by
  simp only [readByte, Bool.false_eq_true, if_false, vfsRead]
  rw [List.head?_eq_getElem?, getElem?_pread, if_pos Nat.one_pos, Nat.add_zero]

/-- The lower fault handler shows the lower file. -/
theorem lowerFault_eq {lower : List Byte} (hoff : off < lower.length) :
    ∃ page, lowerFault lower (pageIndex off) = some page ∧
      some (page ⟨pageOffset off, pageOffset_lt off⟩) = lower[off]? := by
  have hpos := pageStart_add_pageOffset off
  have hin := pageOffset_lt off
  have hlen := length_pread lower (pageStart (pageIndex off)) pageCacheSize
  refine ⟨_, if_pos (by omega), ?_⟩
  have hbyte : (pread lower (pageStart (pageIndex off)) pageCacheSize)[pageOffset off - 0]? =
      some (storeBytes (fun _ => 0) 0
        (pread lower (pageStart (pageIndex off)) pageCacheSize)
        ⟨pageOffset off, hin⟩) :=
    storeBytes_of_mem (i := ⟨pageOffset off, hin⟩) _ ⟨Nat.zero_le _, by
      show pageOffset off < _
      omega⟩
  rw [← hbyte, Nat.sub_zero, getElem?_pread, if_pos hin, hpos]

end Views

/-- **When a mapping shows what `read` returns.**  For any sequence of `mmap` calls on a
file whose pages are not locked: every mapping shows at every offset below `i_size`
what `read` returns there, if and only if the mount is without the `mmap` option, or
nothing is mapped, or every byte of the file reads as zero. -/
theorem mapped_eq_read_iff (E : BlockCipher) (k : Key) (aopsEnabled : Bool)
    (scratch stale : ℕ → Page) {ino : Inode} (hfree : ∀ index, Unlocked ino index)
    (hsize : aopsEnabled = false → ino.iSize = ino.lower.length) (ms : List MmapCall) :
    (∀ vma ∈ (mmapRun aopsEnabled ms).vmas, ∀ off < ino.iSize,
        mappedByte (mmapRun aopsEnabled ms) ino.lower vma off =
          readByte E k aopsEnabled scratch stale ino off) ↔
      aopsEnabled = false ∨ (mmapRun aopsEnabled ms).vmas = [] ∨
        ∀ off < ino.iSize, shownByte E k scratch ino off = 0 := by
  have hinv := mappingsInv_mmapRun aopsEnabled ms
  cases aopsEnabled with
  | false =>
      refine ⟨fun _ => Or.inl rfl, fun _ vma hvma off hoff => ?_⟩
      rw [hsize rfl] at hoff
      obtain ⟨page, hpage, hbyte⟩ := lowerFault_eq hoff
      have hops : vma.vmOps = some .wrapfs := hinv.vmOps vma hvma
      rw [readByte_passThrough, ← hbyte]
      simp only [mappedByte, handleFault, hops, wrapfsFault, hinv.mapped vma hvma, hpage]
  | true =>
      -- the area has no operations, so the mapping shows zeros
      have hzero : ∀ vma ∈ (mmapRun true ms).vmas, ∀ off,
          mappedByte (mmapRun true ms) ino.lower vma off = some 0 := by
        intro vma hvma off
        have hops : vma.vmOps = none := hinv.vmOps vma hvma
        simp only [mappedByte, handleFault, hops]
      constructor
      · intro hequal
        right
        by_cases hmapped : (mmapRun true ms).vmas = []
        · exact Or.inl hmapped
        · obtain ⟨vma, rest, hvmas⟩ := List.exists_cons_of_ne_nil hmapped
          have hvma : vma ∈ (mmapRun true ms).vmas := by
            rw [hvmas]
            exact List.mem_cons_self
          refine Or.inr fun off hoff => ?_
          have hview := hequal vma hvma off hoff
          rw [hzero vma hvma, readByte_aops (hfree _) hoff] at hview
          exact (Option.some.inj hview).symm
      · intro hcond vma hvma off hoff
        rw [hzero vma hvma, readByte_aops (hfree _) hoff]
        rcases hcond with h | h | h
        · cases h
        · rw [h] at hvma
          cases hvma
        · rw [h off hoff]

/-- A read-only mapping of open file 0, every call succeeding. -/
def mapFirst : MmapCall := ⟨0, false, ⟨true, none, none⟩⟩

/-- Mapped twice without the `mmap` option, a file shows its bytes. -/
theorem mapped_eq_read_iff_twice :
    (mmapRun false [mapFirst, mapFirst]).vmas.length = 2 ∧
      ∀ vma ∈ (mmapRun false [mapFirst, mapFirst]).vmas, ∀ off < (Inode.fresh [97]).iSize,
        mappedByte (mmapRun false [mapFirst, mapFirst]) (Inode.fresh [97]).lower vma off =
          readByte (constCipher 1) zeroKey false (fun _ _ => 0) (fun _ _ => 0) (.fresh [97])
            off := by
  refine ⟨rfl, (mapped_eq_read_iff (constCipher 1) zeroKey false (fun _ _ => 0)
    (fun _ _ => 0) (fun index page hpage => ?_) (fun _ => rfl)
    [mapFirst, mapFirst]).mpr (Or.inl rfl)⟩
  cases hpage

/-- **With the `mmap` option a mapping shows zeros.**  The lower file holds the
ciphertext of one byte; `read` returns that byte, the mapping shows 0. -/
theorem mapping_shows_zero :
    ∃ vma ∈ (mmapRun true [mapFirst]).vmas,
      mappedByte (mmapRun true [mapFirst]) [96] vma 0 = some 0 ∧
      readByte (constCipher 1) zeroKey true (fun _ _ => 0) (fun _ _ => 0) (.fresh [96]) 0 =
        some 97 := by
  refine ⟨_, List.mem_cons_self, rfl, ?_⟩
  have hfree : Unlocked (Inode.fresh [96]) (pageIndex 0) := by
    intro page hpage
    cases hpage
  rw [readByte_aops hfree Nat.one_pos]
  rfl

end Wrapfs
