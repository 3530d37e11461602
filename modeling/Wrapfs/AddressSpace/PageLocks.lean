import Wrapfs.AddressSpace.Confidentiality

/-!
# Page locks and page references

The contract between the VFS and the address space operations: `->readpage` and `->writepage` get
a locked page and unlock it; `->write_begin` returns a page locked and referenced, or fails and
holds nothing; `->write_end` gets that page, unlocks it and drops the reference.

## Two views of one page

The operations of this development keep a lock *flag* and a reference *count* in each page.  A
flag cannot tell one unlock from two, so each operation is given here, exit by exit, the list of
what it takes and gives back of its page (`readpageHolds`, `writeBeginHolds`, …), and the list is
replayed as a ledger.  `replay_readpage` and its companions say that the two views agree: the flag
and the count an operation leaves are what the replay of its list leaves.

## The protocol over runs

`lockStep` is the mount of `Wrapfs.AddressSpace.Confidentiality`, any number of files, writers and
key ioctls, interleaved, with page reads and reclaim added.  `LocksHeld` is the invariant: a page
is locked and referenced exactly while one write in progress is on it.

Two exits break the contract: `wrapfs_readpage` returns `-EPERM` at once when no key is set, and
`wrapfs_write_end` returns `-EIO` at once when there is no lower file.  `locks_held_iff` says that
these are all: over any run the protocol is kept if and only if neither exit is taken.  The first
can be had by anyone who reads a file of a new mount (`page_left_locked_without_key`).

## How the steps are proved

Three lemmas about the invariant alone do the work: a step on a page nobody has locked keeps it
exactly when it leaves the page at rest (`LocksHeld.touch_iff`), a write may begin on such a page
(`LocksHeld.begin`), and a write that ends keeps it exactly when its page is left at rest
(`LocksHeld.end_iff`).  The lemma of an operation supplies which of these it is and what it
leaves; that an operation on a locked page waits, so that no step is taken at all, is in
`lockPage` and `grabCachePageWriteBegin`.
-/

namespace Wrapfs

open Ledger Runs

/-! ## What is held of a page -/

/-- What a call can hold of a cache page: `PG_locked`, or a reference. -/
inductive Hold where
  | lock
  | ref
  deriving DecidableEq

/-- What calls in progress hold of the page. -/
def CachePage.holds (page : CachePage) : Multiset Hold :=
  if page.locked then .lock ::ₘ Multiset.replicate page.refs .ref
  else Multiset.replicate page.refs .ref

/-- What calls in progress hold of the page of index `index`, if it is cached. -/
def Inode.holds (ino : Inode) (index : ℕ) : Multiset Hold :=
  match ino.pages index with
  | none => 0
  | some page => page.holds

/-- A locked page. -/
theorem CachePage.holds_of_locked {page : CachePage} (h : page.locked = true) :
    page.holds = .lock ::ₘ Multiset.replicate page.refs .ref := by
  rw [holds, if_pos h]

/-- The flag is the lock in the ledger. -/
theorem CachePage.lock_mem_holds {page : CachePage} :
    Hold.lock ∈ page.holds ↔ page.locked = true := by
  unfold holds
  split
  · rename_i h
    exact iff_of_true (Multiset.mem_cons_self _ _) h
  · rename_i h
    refine iff_of_false (fun hmem => ?_) h
    cases Multiset.eq_of_mem_replicate hmem

/-- A page at rest. -/
theorem CachePage.holds_eq_zero {page : CachePage} :
    page.holds = 0 ↔ page.locked = false ∧ page.refs = 0 := by
  unfold holds
  cases page.locked with
  | true => simp
  | false =>
      simp only [Bool.false_eq_true, if_false, true_and]
      rw [← Multiset.card_eq_zero, Multiset.card_replicate]

/-- A page a write is in progress on. -/
theorem CachePage.holds_eq_lock_ref {page : CachePage} :
    page.holds = {.lock, .ref} ↔ page.locked = true ∧ page.refs = 1 := by
  unfold holds
  cases page.locked with
  | true =>
      simp only [if_true, true_and, Multiset.insert_eq_cons, Multiset.cons_inj_right]
      constructor
      · intro h
        simpa using congrArg Multiset.card h
      · intro h
        rw [h]
        rfl
  | false =>
      simp only [Bool.false_eq_true, if_false, false_and, iff_false]
      intro h
      have hlock : Hold.lock ∈ Multiset.replicate page.refs Hold.ref := by
        rw [h]
        exact Multiset.mem_cons_self _ _
      cases Multiset.eq_of_mem_replicate hlock

/-- A page that is cached. -/
theorem Inode.holds_of_pages {ino : Inode} {index : ℕ} {page : CachePage}
    (h : ino.pages index = some page) : ino.holds index = page.holds := by
  rw [holds, h]

@[simp] theorem Inode.holds_setPage_self (ino : Inode) (index : ℕ) (page : CachePage) :
    (ino.setPage index page).holds index = page.holds :=
  holds_of_pages (setPage_pages_self ino index page)

/-- Other pages are held as before. -/
theorem Inode.holds_setPage_of_ne (ino : Inode) {index j : ℕ} (page : CachePage)
    (h : j ≠ index) : (ino.setPage index page).holds j = ino.holds j := by
  rw [holds, setPage_pages_of_ne ino page h, holds]

/-! ## What each operation takes and gives back -/

/-- `wrapfs_readpage`: only the return for want of a key bypasses `out`. -/
def readpageHolds : Option Key → List (Event Hold)
  | none => []
  | some _ => [.release .lock]

/-- `wrapfs_writepage`: every exit goes through `out`. -/
def writepageHolds : List (Event Hold) := [.release .lock]

/-- `wrapfs_write_begin`: `grab_cache_page_write_begin`, if it is reached and finds a page. -/
def writeBeginHolds (key : Option Key) (stale : Option Page) (ino : Inode) (pos : ℕ) :
    List (Event Hold) :=
  match key with
  | none => []
  | some _ =>
      match grabCachePageWriteBegin ino (pageIndex pos) stale with
      | .ok (some _) => [.acquire .lock, .acquire .ref]
      | _ => []

/-- The `out` label of `wrapfs_write_end`. -/
def writeEndOutHolds (needUnlockPage : Bool) : List (Event Hold) :=
  (if needUnlockPage then [.release .lock] else []) ++ [.release .ref]

/-- `wrapfs_write_end`. -/
def writeEndHolds (key : Option Key) (file : OpenFile) (c : WriteEndCalls) :
    List (Event Hold) :=
  match file.info with
  | none => []
  | some none => []
  | some (some _) =>
      match key, c.allocPage with
      | some _, none => writeEndOutHolds true
      | _, _ => .release .lock :: writeEndOutHolds false

/-! ## The two views agree -/

section Replay

variable {E : BlockCipher} {key : Option Key} {ino : Inode} {index : ℕ} {page : CachePage}

/-- Unlocking a locked page. -/
theorem replay_unlock (h : page.locked = true) (es : List (Event Hold)) :
    replay page.holds (.release .lock :: es) =
      replay ({ page with locked := false } : CachePage).holds es := by
  rw [CachePage.holds_of_locked h, replay_release_head]
  rfl

/-- `lock_page` takes the lock, of a page that was not locked. -/
theorem holds_lockPage {stale : Page} (h : lockPage ino index stale = .ok page) :
    page.locked = true ∧ .lock ∉ ino.holds index ∧ page.holds = .lock ::ₘ ino.holds index := by
  unfold lockPage at h
  split at h
  · rename_i page₀ hpage
    split_ifs at h with hlocked
    cases h
    rw [Inode.holds_of_pages hpage, CachePage.lock_mem_holds]
    refine ⟨rfl, hlocked, ?_⟩
    rw [CachePage.holds_of_locked rfl, CachePage.holds, if_neg hlocked]
  · rename_i hpage
    cases h
    rw [Inode.holds, hpage]
    exact ⟨rfl, Multiset.notMem_zero _, rfl⟩

/-- So does `grab_cache_page_write_begin`, and a reference. -/
theorem holds_grabCachePageWriteBegin {stale : Option Page}
    (h : grabCachePageWriteBegin ino index stale = .ok (some page)) :
    .lock ∉ ino.holds index ∧ page.holds = .lock ::ₘ .ref ::ₘ ino.holds index := by
  unfold grabCachePageWriteBegin at h
  split at h
  · rename_i page₀ hpage
    split_ifs at h with hlocked
    cases h
    rw [Inode.holds_of_pages hpage, CachePage.lock_mem_holds]
    refine ⟨hlocked, ?_⟩
    rw [CachePage.holds_of_locked rfl, CachePage.holds, if_neg hlocked, Multiset.replicate_succ]
  · rename_i hpage
    rw [Inode.holds, hpage]
    refine ⟨Multiset.notMem_zero _, ?_⟩
    cases stale with
    | none => cases h
    | some data =>
        cases h
        rfl

/-- **The two views of `wrapfs_readpage`.** -/
theorem replay_readpage {file : OpenFile} {c : ReadpageCalls} {r : PageOp}
    (hlocked : page.locked = true)
    (h : wrapfsReadpage E key file c ino index page = .ok r) :
    replay page.holds (readpageHolds key) = some (r.inode.holds index) ∧
      ∀ j, j ≠ index → r.inode.holds j = ino.holds j := by
  cases key with
  | none =>
      cases h
      exact ⟨by rw [Inode.holds_setPage_self]; rfl,
        fun j hj => Inode.holds_setPage_of_ne ino page hj⟩
  | some k =>
      -- whatever happened before, `out` unlocks the page
      have hout : ∃ (p : CachePage) (err : ℤ) (es : List (Event Scratch)),
          r = readpageOut ino index p err es ∧ p.locked = page.locked ∧ p.refs = page.refs := by
        unfold wrapfsReadpage at h
        dsimp only at h
        split at h
        · cases h
          exact ⟨_, _, _, rfl, rfl, rfl⟩
        · split at h
          · cases h
            exact ⟨_, _, _, rfl, rfl, rfl⟩
          · cases h
          · cases h
            exact ⟨_, _, _, rfl, rfl, rfl⟩
      obtain ⟨p, err, es, rfl, -, hrefs⟩ := hout
      refine ⟨?_, fun j hj => Inode.holds_setPage_of_ne ino _ hj⟩
      rw [readpageHolds, replay_unlock hlocked, replay_nil, readpageOut,
        Inode.holds_setPage_self]
      simp only [CachePage.holds, hrefs, Bool.false_eq_true, if_false]

/-- **The two views of `wrapfs_writepage`.** -/
theorem replay_writepage {c : WritepageCalls} {ret : ℤ} {ino' : Inode} {handed : Option Handed}
    (hlocked : page.locked = true)
    (h : wrapfsWritepage c ino index page = .ok (ret, ino', handed)) :
    replay page.holds writepageHolds = some (ino'.holds index) ∧
      ∀ j, j ≠ index → ino'.holds j = ino.holds j := by
  unfold wrapfsWritepage at h
  split_ifs at h with hup hlower
  · cases h
    refine ⟨?_, fun j hj => Inode.holds_setPage_of_ne ino _ hj⟩
    rw [writepageHolds, replay_unlock hlocked, replay_nil, Inode.holds_setPage_self]
  · simp only [hlower] at h
    cases h

/-- `wrapfs_write_begin` fails and has taken nothing, or succeeds and has taken both. -/
theorem replay_writeBegin {stale : Option Page} {pos len : ℕ} {ret : ℤ} {ino' : Inode}
    (h : wrapfsWriteBegin key stale ino pos len = .ok (ret, ino')) :
    ret ≠ 0 ∧ ino' = ino ∧ writeBeginHolds key stale ino pos = [] ∨
      ret = 0 ∧ writeBeginHolds key stale ino pos = [.acquire .lock, .acquire .ref] ∧
        .lock ∉ ino.holds (pageIndex pos) ∧
        ino'.holds (pageIndex pos) = .lock ::ₘ .ref ::ₘ ino.holds (pageIndex pos) ∧
        ∀ j, j ≠ pageIndex pos → ino'.holds j = ino.holds j := by
  cases key with
  | none =>
      cases h
      exact Or.inl ⟨Errno.ret_ne_zero _, rfl, rfl⟩
  | some k =>
      cases hgrab : grabCachePageWriteBegin ino (pageIndex pos) stale with
      | error fault =>
          simp only [wrapfsWriteBegin, hgrab] at h
          cases h
      | ok grabbed =>
          cases grabbed with
          | none =>
              simp only [wrapfsWriteBegin, hgrab] at h
              cases h
              exact Or.inl ⟨Errno.ret_ne_zero _, rfl, by simp only [writeBeginHolds, hgrab]⟩
          | some page =>
              have hpage := holds_grabCachePageWriteBegin hgrab
              simp only [wrapfsWriteBegin, hgrab] at h
              cases h
              refine Or.inr ⟨rfl, by simp only [writeBeginHolds, hgrab], hpage.1, ?_,
                fun j hj => Inode.holds_setPage_of_ne ino _ hj⟩
              rw [Inode.holds_setPage_self, ← hpage.2]
              rfl

/-- **The two views of `wrapfs_write_end`**, on a page as `write_begin` leaves it. -/
theorem replay_writeEnd {file : OpenFile} {c : WriteEndCalls} {pos copied : ℕ} {r : WriteEnd}
    (hpage : ino.pages index = some page) (hheld : page.holds = {.lock, .ref})
    (h : wrapfsWriteEnd E key file c ino pos copied index page = .ok r) :
    replay page.holds (writeEndHolds key file c) = some (r.inode.holds index) ∧
      ∀ j, j ≠ index → r.inode.holds j = ino.holds j := by
  have hrefs : page.refs - 1 = 0 := by
    rw [(CachePage.holds_eq_lock_ref.mp hheld).2]
  -- both exits through `out` leave the page at rest
  have hout : ∀ (ino' : Inode) (p : CachePage), (∀ j, ino'.holds j = ino.holds j) →
      p.locked = false → p.refs = page.refs - 1 →
      some (0 : Multiset Hold) = some ((ino'.setPage index p).holds index) ∧
        ∀ j, j ≠ index → (ino'.setPage index p).holds j = ino.holds j := by
    intro ino' p hino hlocked hp
    rw [Inode.holds_setPage_self, CachePage.holds_eq_zero.mpr ⟨hlocked, hp.trans hrefs⟩]
    exact ⟨rfl, fun j hj => (Inode.holds_setPage_of_ne ino' p hj).trans (hino j)⟩
  rw [hheld]
  rcases hinfo : file.info with - | - | f
  · simp only [wrapfsWriteEnd, hinfo] at h
    cases h
  · simp only [wrapfsWriteEnd, hinfo] at h
    cases h
    have hes : writeEndHolds key file c = [] := by
      simp only [writeEndHolds, hinfo]
    rw [hes, Inode.holds_of_pages hpage, hheld]
    exact ⟨rfl, fun _ _ => rfl⟩
  · simp only [wrapfsWriteEnd, hinfo] at h
    simp only [writeEndHolds, hinfo]
    cases key with
    | none =>
        cases h
        exact hout _ _ (fun _ => rfl) rfl rfl
    | some k =>
        cases halloc : c.allocPage with
        | none =>
            simp only [halloc] at h
            cases h
            exact hout _ _ (fun _ => rfl) rfl rfl
        | some stale =>
            simp only [halloc] at h
            cases h
            exact hout _ _ (fun _ => rfl) rfl rfl

end Replay

/-! ## The machine -/

/-- A call of an address space operation, with what it took and gave back of its page and, for
a `write_begin`, what it returned. -/
inductive PageCall where
  | readpage (es : List (Event Hold))
  | writepage (es : List (Event Hold))
  | writeBegin (ret : ℤ) (es : List (Event Hold))
  | writeEnd (es : List (Event Hold))

/-- A mount, with the calls made so far. -/
structure LockState where
  mount : MountState
  calls : List PageCall

/-- The steps of a mount, a page read by the VFS, and the reclaim of a page. -/
inductive LockAction where
  | mount (a : MountAction)
  | readpage (file : ℕ) (fd : OpenFile) (index : ℕ) (c : ReadpageCalls) (stale : Page)
  | evict (file index : ℕ)

/-- The address space operation a step of the mount calls. -/
def mountCalls (s : MountState) : MountAction → List PageCall
  | .ioctl .. => []
  | .writeBegin _ file _ extent stale =>
      match wrapfsWriteBegin s.key stale (s.inodes file) extent.pos extent.len with
      | .error _ => []
      | .ok (ret, _) =>
          [.writeBegin ret (writeBeginHolds s.key stale (s.inodes file) extent.pos)]
  | .userCopy .. => []
  | .writeEnd writer c =>
      match s.writers writer with
      | none => []
      | some wr => [.writeEnd (writeEndHolds s.key wr.fd c)]
  | .writepage file index _ =>
      match (s.inodes file).pages index with
      | none => []
      | some _ => [.writepage writepageHolds]

/-- One step. -/
def lockStep (E : BlockCipher) (md5 : List Byte → Key) (s : LockState) :
    LockAction → Except Fault LockState
  | .mount a =>
      match mountStep E md5 s.mount a with
      | .error fault => .error fault
      | .ok m => .ok ⟨m, s.calls ++ mountCalls s.mount a⟩
  | .readpage file fd index c stale =>
      match vfsReadpage E s.mount.key fd c stale (s.mount.inodes file) index with
      | .error fault => .error fault
      | .ok r => .ok
          { mount := { s.mount with inodes := Function.update s.mount.inodes file r.inode }
            calls := s.calls ++ [.readpage (readpageHolds s.mount.key)] }
  | .evict file index => .ok
      { mount := { s.mount with
          inodes := Function.update s.mount.inodes file (evictPage (s.mount.inodes file) index) }
        calls := s.calls }

/-! ## The protocol -/

/-- A write in progress is on the page. -/
def MountState.Writing (s : MountState) (file index : ℕ) : Prop :=
  ∃ w wr, s.writers w = some wr ∧ wr.file = file ∧ wr.extent.index = index

/-- A page is locked and referenced while a write in progress is on it, once each, and is at rest
otherwise; no two writes are on one page. -/
structure LocksHeld (s : MountState) : Prop where
  busy : ∀ {w wr}, s.writers w = some wr →
    (s.inodes wr.file).holds wr.extent.index = {.lock, .ref}
  free : ∀ {file index}, ¬ s.Writing file index → (s.inodes file).holds index = 0
  alone : ∀ {w w' wr wr'}, s.writers w = some wr → s.writers w' = some wr' →
    wr.file = wr'.file → wr.extent.index = wr'.extent.index → w = w'

/-- What the contract asks of one call: `->readpage` and `->writepage` give back the lock they
were given; `->write_begin` takes the lock and a reference, or nothing if it fails;
`->write_end` gives back both. -/
def PageCall.Obeys : PageCall → Prop
  | .readpage es => replay {.lock} es = some 0
  | .writepage es => replay {.lock} es = some 0
  | .writeBegin ret es => replay 0 es = some (if ret = 0 then {.lock, .ref} else 0)
  | .writeEnd es => replay {.lock, .ref} es = some 0

/-- The two exits that keep the page are not taken. -/
def LeavesThroughOut (s : LockState) : LockAction → Prop
  | .mount (.writeEnd writer _) =>
      ∀ wr, s.mount.writers writer = some wr → wr.fd.info ≠ some none
  | .readpage .. => s.mount.key ≠ none
  | _ => True

/-- Where nobody is writing, no page is locked or referenced. -/
theorem LocksHeld.at_rest {s : MountState} (h : LocksHeld s) (hidle : ∀ w, s.writers w = none)
    {file index : ℕ} {page : CachePage} (hpage : (s.inodes file).pages index = some page) :
    page.locked = false ∧ page.refs = 0 := by
  have hfree : ¬ s.Writing file index := by
    rintro ⟨w, wr, hw, -⟩
    rw [hidle w] at hw
    cases hw
  rw [← CachePage.holds_eq_zero, ← Inode.holds_of_pages hpage]
  exact h.free hfree

section Steps

variable {E : BlockCipher} {md5 : List Byte → Key} {s s' : MountState}

/-- A page nobody has locked is a page nobody writes to. -/
theorem LocksHeld.not_writing (h : LocksHeld s) {file index : ℕ}
    (hlock : .lock ∉ (s.inodes file).holds index) : ¬ s.Writing file index := by
  rintro ⟨w, wr, hw, rfl, rfl⟩
  rw [h.busy hw] at hlock
  exact hlock (Multiset.mem_cons_self _ _)

/-- The invariant sees only what is held, and which pages are written to. -/
theorem LocksHeld.congr (h : LocksHeld s)
    (hholds : ∀ file index, (s'.inodes file).holds index = (s.inodes file).holds index)
    (hwriters : ∀ w, (s'.writers w).map (fun wr => (wr.file, wr.extent)) =
      (s.writers w).map fun wr => (wr.file, wr.extent)) : LocksHeld s' := by
  have hback : ∀ {w wr'}, s'.writers w = some wr' →
      ∃ wr, s.writers w = some wr ∧ wr.file = wr'.file ∧ wr.extent = wr'.extent := by
    intro w wr' hw
    have hmap := hwriters w
    rw [hw] at hmap
    obtain ⟨wr, hwr, heq⟩ := Option.map_eq_some_iff.mp hmap.symm
    exact ⟨wr, hwr, congrArg Prod.fst heq, congrArg Prod.snd heq⟩
  have hforth : ∀ {w wr}, s.writers w = some wr →
      ∃ wr', s'.writers w = some wr' ∧ wr'.file = wr.file ∧ wr'.extent = wr.extent := by
    intro w wr hw
    have hmap := hwriters w
    rw [hw] at hmap
    obtain ⟨wr', hwr', heq⟩ := Option.map_eq_some_iff.mp hmap
    exact ⟨wr', hwr', congrArg Prod.fst heq, congrArg Prod.snd heq⟩
  refine ⟨fun {w wr'} hw => ?_, fun {file index} hfree => ?_,
    fun {w w' wr₁ wr₂} h₁ h₂ hfile hindex => ?_⟩
  · obtain ⟨wr, hwr, hfile, hextent⟩ := hback hw
    rw [hholds, ← hfile, ← hextent]
    exact h.busy hwr
  · rw [hholds]
    refine h.free ?_
    rintro ⟨w, wr, hw, rfl, rfl⟩
    obtain ⟨wr', hwr', hfile, hextent⟩ := hforth hw
    exact hfree ⟨w, wr', hwr', hfile, by rw [Extent.index, hextent, Extent.index]⟩
  · obtain ⟨wr₁', hwr₁, hfile₁, hextent₁⟩ := hback h₁
    obtain ⟨wr₂', hwr₂, hfile₂, hextent₂⟩ := hback h₂
    refine h.alone hwr₁ hwr₂ ?_ ?_
    · rw [hfile₁, hfile₂, hfile]
    · rw [hextent₁, hextent₂, hindex]

/-- What is held of the pages after one inode is replaced. -/
theorem holds_update {inodes : ℕ → Inode} {file index : ℕ} {ino : Inode}
    (hother : ∀ j, j ≠ index → ino.holds j = (inodes file).holds j) {f i : ℕ}
    (hne : f ≠ file ∨ i ≠ index) :
    (Function.update inodes file ino f).holds i = (inodes f).holds i := by
  by_cases hf : f = file
  · subst hf
    rw [Function.update_self]
    exact hother i (hne.resolve_left (fun h => h rfl))
  · rw [Function.update_of_ne hf]

/-- A step on a page nobody has locked keeps the invariant exactly when it leaves the page at
rest. -/
theorem LocksHeld.touch_iff (h : LocksHeld s) {file index : ℕ} {ino : Inode}
    (hlock : .lock ∉ (s.inodes file).holds index)
    (hother : ∀ j, j ≠ index → ino.holds j = (s.inodes file).holds j)
    (hinodes : s'.inodes = Function.update s.inodes file ino) (hwriters : s'.writers = s.writers) :
    LocksHeld s' ↔ ino.holds index = 0 := by
  have hfree := h.not_writing hlock
  constructor
  · intro h'
    have hfree' : ¬ s'.Writing file index := by
      rwa [MountState.Writing, hwriters]
    simpa only [hinodes, Function.update_self] using h'.free hfree'
  · intro hzero
    refine h.congr (fun f i => ?_) fun w => by rw [hwriters]
    rw [hinodes]
    by_cases hsame : f = file ∧ i = index
    · obtain ⟨rfl, rfl⟩ := hsame
      rw [Function.update_self, hzero, h.free hfree]
    · exact holds_update hother (not_and_or.mp hsame)

/-- A write begins on a page nobody has locked. -/
theorem LocksHeld.begin (h : LocksHeld s) {writer : ℕ} {wr : Writer} {ino : Inode}
    (hlock : .lock ∉ (s.inodes wr.file).holds wr.extent.index)
    (hself : ino.holds wr.extent.index = {.lock, .ref})
    (hother : ∀ j, j ≠ wr.extent.index → ino.holds j = (s.inodes wr.file).holds j)
    (hidle : s.writers writer = none)
    (hinodes : s'.inodes = Function.update s.inodes wr.file ino)
    (hwriters : s'.writers = Function.update s.writers writer (some wr)) : LocksHeld s' := by
  have hfree := h.not_writing hlock
  -- a writer of the new state is the new one, or an old one on another page
  have hcases : ∀ {w wr'}, s'.writers w = some wr' → w = writer ∧ wr' = wr ∨
      w ≠ writer ∧ s.writers w = some wr' ∧ (wr'.file ≠ wr.file ∨
        wr'.extent.index ≠ wr.extent.index) := by
    intro w wr' hw
    rw [hwriters] at hw
    by_cases hself : w = writer
    · subst hself
      rw [Function.update_self] at hw
      exact Or.inl ⟨rfl, (Option.some.inj hw).symm⟩
    · rw [Function.update_of_ne hself] at hw
      refine Or.inr ⟨hself, hw, not_and_or.mp ?_⟩
      rintro ⟨hfile, hindex⟩
      exact hfree ⟨w, wr', hw, hfile, hindex⟩
  refine ⟨fun {w wr'} hw => ?_, fun {f i} hnot => ?_, fun {w w' wr₁ wr₂} h₁ h₂ hfile hindex => ?_⟩
  · rw [hinodes]
    rcases hcases hw with ⟨-, rfl⟩ | ⟨-, hold, hne⟩
    · rw [Function.update_self, hself]
    · rw [holds_update hother hne]
      exact h.busy hold
  · have hne : f ≠ wr.file ∨ i ≠ wr.extent.index := by
      refine not_and_or.mp ?_
      rintro ⟨rfl, rfl⟩
      exact hnot ⟨writer, wr, by rw [hwriters, Function.update_self], rfl, rfl⟩
    rw [hinodes, holds_update hother hne]
    refine h.free ?_
    rintro ⟨w, wr', hw, hfile, hindex⟩
    have hw' : w ≠ writer := by
      rintro rfl
      rw [hidle] at hw
      cases hw
    exact hnot ⟨w, wr', by rw [hwriters, Function.update_of_ne hw', hw], hfile, hindex⟩
  · rcases hcases h₁ with ⟨rfl, rfl⟩ | ⟨-, hold₁, hne₁⟩ <;>
      rcases hcases h₂ with ⟨rfl, rfl⟩ | ⟨-, hold₂, hne₂⟩
    · rfl
    · exact absurd ⟨hfile.symm, hindex.symm⟩ (not_and_or.mpr hne₂)
    · exact absurd ⟨hfile, hindex⟩ (not_and_or.mpr hne₁)
    · exact h.alone hold₁ hold₂ hfile hindex

/-- A write ends, and the invariant is kept exactly when its page is left at rest. -/
theorem LocksHeld.end_iff (h : LocksHeld s) {writer : ℕ} {wr : Writer} {ino : Inode}
    (hwr : s.writers writer = some wr)
    (hother : ∀ j, j ≠ wr.extent.index → ino.holds j = (s.inodes wr.file).holds j)
    (hinodes : s'.inodes = Function.update s.inodes wr.file ino)
    (hwriters : s'.writers = Function.update s.writers writer none) :
    LocksHeld s' ↔ ino.holds wr.extent.index = 0 := by
  -- the writers that are left are on other pages
  have hleft : ∀ {w wr'}, s'.writers w = some wr' → s.writers w = some wr' ∧
      (wr'.file ≠ wr.file ∨ wr'.extent.index ≠ wr.extent.index) := by
    intro w wr' hw
    rw [hwriters] at hw
    have hne : w ≠ writer := by
      rintro rfl
      rw [Function.update_self] at hw
      cases hw
    rw [Function.update_of_ne hne] at hw
    refine ⟨hw, not_and_or.mp ?_⟩
    rintro ⟨hfile, hindex⟩
    exact hne (h.alone hw hwr hfile hindex)
  constructor
  · intro h'
    have hfree : ¬ s'.Writing wr.file wr.extent.index := by
      rintro ⟨w, wr', hw, hfile, hindex⟩
      exact not_and_or.mpr (hleft hw).2 ⟨hfile, hindex⟩
    simpa only [hinodes, Function.update_self] using h'.free hfree
  · intro hzero
    refine ⟨fun {w wr'} hw => ?_, fun {f i} hnot => ?_,
      fun {w w' wr₁ wr₂} h₁ h₂ => h.alone (hleft h₁).1 (hleft h₂).1⟩
    · obtain ⟨hold, hne⟩ := hleft hw
      rw [hinodes, holds_update hother hne]
      exact h.busy hold
    · rw [hinodes]
      by_cases hsame : f = wr.file ∧ i = wr.extent.index
      · obtain ⟨rfl, rfl⟩ := hsame
        rw [Function.update_self, hzero]
      · rw [holds_update hother (not_and_or.mp hsame)]
        refine h.free ?_
        rintro ⟨w, wr', hw, hfile, hindex⟩
        have hw' : w ≠ writer := by
          rintro rfl
          obtain rfl := Option.some.inj (hwr.symm.trans hw)
          exact hsame ⟨hfile.symm, hindex.symm⟩
        exact hnot ⟨w, wr', by rw [hwriters, Function.update_of_ne hw', hw], hfile, hindex⟩

/-- The user copy holds nothing of its own. -/
theorem holds_copyFromUser (ino : Inode) (pos : ℕ) (data : List Byte) (j : ℕ) :
    (copyFromUser ino pos data).holds j = ino.holds j := by
  unfold copyFromUser
  split
  · rfl
  · rename_i page hpage
    by_cases hj : j = pageIndex pos
    · subst hj
      rw [Inode.holds_setPage_self, Inode.holds_of_pages hpage]
      rfl
    · exact Inode.holds_setPage_of_ne ino _ hj

/-- A key ioctl has nothing to do with pages. -/
theorem LocksHeld.ioctl (h : LocksHeld s) {c : IoctlCalls} {cmd : IoctlCmd}
    (hstep : ioctlStep md5 s c cmd = .ok s') : LocksHeld s' := by
  unfold ioctlStep at hstep
  split at hstep
  · cases hstep
  · cases hstep
    exact h.congr (fun _ _ => rfl) fun w => by rw [Option.map_map]; rfl

theorem LocksHeld.userCopy (h : LocksHeld s) {writer : ℕ} {data : List Byte}
    (hstep : userCopyStep s writer data = .ok s') : LocksHeld s' := by
  unfold userCopyStep at hstep
  split at hstep
  · cases hstep
  · rename_i wr hwr
    cases hstep
    refine h.congr (fun f i => ?_) fun w => ?_
    · by_cases hf : f = wr.file
      · subst hf
        simp only [Function.update_self]
        exact holds_copyFromUser _ _ _ i
      · simp only [Function.update_of_ne hf]
    · by_cases hw : w = writer
      · subst hw
        simp only [Function.update_self, hwr, Option.map_some]
      · simp only [Function.update_of_ne hw]

/-- Writeback unlocks what it has locked. -/
theorem LocksHeld.writepage (h : LocksHeld s) {file index : ℕ} {c : WritepageCalls}
    (hstep : writepageStep s file index c = .ok s') : LocksHeld s' := by
  unfold writepageStep at hstep
  split at hstep
  · cases hstep
    exact h
  · rename_i page hpage
    split_ifs at hstep with hlocked
    split at hstep
    · cases hstep
    · rename_i ret ino handed hcall
      cases hstep
      have hlock : .lock ∉ (s.inodes file).holds index := by
        rwa [Inode.holds_of_pages hpage, CachePage.lock_mem_holds]
      obtain ⟨hreplay, hother⟩ := replay_writepage rfl hcall
      refine Iff.mpr (h.touch_iff hlock hother rfl rfl) ?_
      -- the page is as it was before it was locked
      have hrest := h.free (h.not_writing hlock)
      rw [Inode.holds_of_pages hpage] at hrest
      rw [writepageHolds, replay_unlock rfl, replay_nil] at hreplay
      rw [← Option.some.inj hreplay, CachePage.holds_eq_zero]
      exact ⟨rfl, (CachePage.holds_eq_zero.mp hrest).2⟩

/-- A write that begins has its page. -/
theorem LocksHeld.writeBegin (h : LocksHeld s) {writer file : ℕ} {fd : OpenFile}
    {extent : Extent} {stale : Option Page}
    (hstep : writeBeginStep s writer file fd extent stale = .ok s') : LocksHeld s' := by
  unfold writeBeginStep at hstep
  split at hstep
  · cases hstep
  · rename_i hidle
    split at hstep
    · cases hstep
    · rename_i ret ino hcall
      cases hstep
      rcases replay_writeBegin hcall with ⟨hret, rfl, -⟩ | ⟨rfl, -, hlock, hself, hother⟩
      · refine h.congr (fun f i => ?_) fun w => ?_
        · simp only [Function.update_eq_self]
        · simp only [if_neg hret]
      · have hzero := h.free (h.not_writing hlock)
        rw [hzero] at hself
        exact @LocksHeld.begin _ _ h writer ⟨file, fd, extent, 0, s.key.toList⟩ ino hlock hself
          hother hidle rfl (by simp only [if_true])

/-- What `wrapfs_write_end` gives back, for a call that returns. -/
theorem replay_writeEndHolds_iff (key : Option Key) {file : OpenFile} (c : WriteEndCalls)
    (hinfo : file.info ≠ none) :
    replay {.lock, .ref} (writeEndHolds key file c) = some 0 ↔ file.info ≠ some none := by
  rcases h : file.info with - | - | f
  · exact absurd h hinfo
  · simp [writeEndHolds, h]
  · refine iff_of_true ?_ nofun
    simp only [writeEndHolds, h]
    split <;> decide

/-- A write that ends has given it back, if there is a lower file. -/
theorem LocksHeld.writeEnd_iff (h : LocksHeld s) {writer : ℕ} {c : WriteEndCalls}
    (hstep : writeEndStep E s writer c = .ok s') :
    ∃ wr, s.writers writer = some wr ∧ wr.fd.info ≠ none ∧
      (LocksHeld s' ↔ wr.fd.info ≠ some none) := by
  unfold writeEndStep at hstep
  split at hstep
  · cases hstep
  · rename_i wr hwr
    split at hstep
    · cases hstep
    · rename_i page hpage
      split at hstep
      · cases hstep
      · rename_i r hcall
        cases hstep
        have hinfo : wr.fd.info ≠ none := by
          intro hnone
          simp only [wrapfsWriteEnd, hnone] at hcall
          cases hcall
        have hheld := h.busy hwr
        rw [Inode.holds_of_pages hpage] at hheld
        obtain ⟨hreplay, hother⟩ := replay_writeEnd hpage hheld hcall
        refine ⟨wr, hwr, hinfo, Iff.trans (h.end_iff hwr hother rfl rfl) ?_⟩
        rw [← replay_writeEndHolds_iff s.key c hinfo, ← hheld, hreplay,
          Option.some.injEq]

/-- A page read has given it back, if there is a key. -/
theorem LocksHeld.readpage_iff {t t' : LockState} (h : LocksHeld t.mount) {file index : ℕ}
    {fd : OpenFile} {c : ReadpageCalls} {stale : Page}
    (hstep : lockStep E md5 t (.readpage file fd index c stale) = .ok t') :
    LocksHeld t'.mount ↔ t.mount.key ≠ none := by
  simp only [lockStep] at hstep
  split at hstep
  · cases hstep
  · rename_i r hcall
    cases hstep
    unfold vfsReadpage at hcall
    split at hcall
    · cases hcall
    · rename_i page hpage
      obtain ⟨hlocked, hlock, hholds⟩ := holds_lockPage hpage
      obtain ⟨hreplay, hother⟩ := replay_readpage hlocked hcall
      refine Iff.trans (h.touch_iff hlock hother rfl rfl) ?_
      rw [hholds, h.free (h.not_writing hlock)] at hreplay
      cases hkey : t.mount.key with
      | none =>
          rw [hkey] at hreplay
          rw [← Option.some.inj hreplay]
          exact iff_of_false (Multiset.cons_ne_zero) fun hne => hne rfl
      | some k =>
          rw [hkey] at hreplay
          rw [readpageHolds, replay_release_head, replay_nil] at hreplay
          exact iff_of_true (Option.some.inj hreplay).symm nofun

/-- A page that is reclaimed is not in use. -/
theorem LocksHeld.evict {t t' : LockState} (h : LocksHeld t.mount) {file index : ℕ}
    (hstep : lockStep E md5 t (.evict file index) = .ok t') : LocksHeld t'.mount := by
  cases hstep
  cases hpage : (t.mount.inodes file).pages index with
  | none =>
      have hsame : evictPage (t.mount.inodes file) index = t.mount.inodes file := by
        simp only [evictPage, hpage]
      simp only [hsame, Function.update_eq_self]
      exact h
  | some page =>
      by_cases hlocked : page.locked = true
      · have hsame : evictPage (t.mount.inodes file) index = t.mount.inodes file := by
          simp only [evictPage, hpage, if_pos hlocked]
        simp only [hsame, Function.update_eq_self]
        exact h
      · have hlock : .lock ∉ (t.mount.inodes file).holds index := by
          rwa [Inode.holds_of_pages hpage, CachePage.lock_mem_holds]
        refine Iff.mpr (h.touch_iff hlock (fun j hj => ?_) rfl rfl) ?_
        · simp only [evictPage, hpage, if_neg hlocked, Inode.holds, Function.update_of_ne hj]
        · simp only [evictPage, hpage, if_neg hlocked, Inode.holds, Function.update_self]

end Steps

/-! ## Runs -/

section Runs

variable {E : BlockCipher} {md5 : List Byte → Key} {s s' : LockState} {a : LockAction}

/-- `->readpage` obeys the contract when a key is set. -/
theorem obeys_readpage_iff (key : Option Key) :
    (PageCall.readpage (readpageHolds key)).Obeys ↔ key ≠ none := by
  cases key with
  | none => exact iff_of_false (by unfold PageCall.Obeys; decide) fun h => h rfl
  | some k => exact iff_of_true (by unfold PageCall.Obeys; rfl) nofun

theorem obeys_writeBegin {key : Option Key} {stale : Option Page} {ino ino' : Inode} {pos len : ℕ}
    {ret : ℤ} (h : wrapfsWriteBegin key stale ino pos len = .ok (ret, ino')) :
    (PageCall.writeBegin ret (writeBeginHolds key stale ino pos)).Obeys := by
  simp only [PageCall.Obeys]
  rcases replay_writeBegin h with ⟨hret, -, hes⟩ | ⟨hret, hes, -⟩
  · rw [hes, if_neg hret, replay_nil]
  · rw [hes, if_pos hret]
    decide

/-- The calls of a mount's steps obey the contract, except where a `write_end` keeps its page. -/
theorem obeys_mountCalls {m : MountState} {b : MountAction} (h : LocksHeld m)
    {m' : MountState} (hstep : mountStep E md5 m b = .ok m')
    (hout : LeavesThroughOut ⟨m, []⟩ (.mount b)) :
    ∀ call ∈ mountCalls m b, call.Obeys := by
  cases b with
  | ioctl c cmd => exact List.forall_mem_nil _
  | userCopy writer data => exact List.forall_mem_nil _
  | writeBegin writer file fd extent stale =>
      simp only [mountCalls]
      split
      · exact List.forall_mem_nil _
      · rename_i ret ino hcall
        exact List.forall_mem_singleton.mpr (obeys_writeBegin hcall)
  | writeEnd writer c =>
      obtain ⟨wr, hwr, hinfo, -⟩ := h.writeEnd_iff hstep
      simp only [mountCalls, hwr, List.forall_mem_singleton]
      exact (replay_writeEndHolds_iff _ c hinfo).mpr (hout wr hwr)
  | writepage file index c =>
      simp only [mountCalls]
      split
      · exact List.forall_mem_nil _
      · refine List.forall_mem_singleton.mpr ?_
        unfold PageCall.Obeys
        decide

/-- **One step** keeps the invariant exactly when it does not take one of the two exits, and
then the call it makes obeys the contract. -/
theorem locksHeld_step_iff (h : LocksHeld s.mount) (hstep : lockStep E md5 s a = .ok s') :
    (LocksHeld s'.mount ↔ LeavesThroughOut s a) ∧
      (LeavesThroughOut s a → (∀ call ∈ s.calls, call.Obeys) → ∀ call ∈ s'.calls, call.Obeys) := by
  cases a with
  | readpage file fd index c stale =>
      refine ⟨h.readpage_iff hstep, fun hkey hcalls => ?_⟩
      simp only [lockStep] at hstep
      split at hstep
      · cases hstep
      · cases hstep
        refine List.forall_mem_append.mpr ⟨hcalls, List.forall_mem_singleton.mpr ?_⟩
        exact (obeys_readpage_iff _).mpr hkey
  | evict file index =>
      refine ⟨iff_of_true (h.evict hstep) trivial, fun _ hcalls => ?_⟩
      cases hstep
      exact hcalls
  | mount b =>
      simp only [lockStep] at hstep
      split at hstep
      · cases hstep
      · rename_i m' hm'
        cases hstep
        refine ⟨?_, fun hout hcalls =>
          List.forall_mem_append.mpr ⟨hcalls, obeys_mountCalls h hm' hout⟩⟩
        cases b with
        | ioctl c cmd => exact iff_of_true (h.ioctl hm') trivial
        | userCopy writer data => exact iff_of_true (h.userCopy hm') trivial
        | writeBegin writer file fd extent stale => exact iff_of_true (h.writeBegin hm') trivial
        | writepage file index c => exact iff_of_true (h.writepage hm') trivial
        | writeEnd writer c =>
            obtain ⟨wr, hwr, -, hiff⟩ := h.writeEnd_iff hm'
            refine hiff.trans ⟨fun hinfo wr' hwr' => ?_, fun hout => hout wr hwr⟩
            obtain rfl := Option.some.inj (hwr.symm.trans hwr')
            exact hinfo

/-- The protocol is kept so far: pages are held by the writes in progress only, and every call
obeyed the contract. -/
def ProtocolKept (s : LockState) : Prop :=
  LocksHeld s.mount ∧ ∀ call ∈ s.calls, call.Obeys

/-- **One step** keeps the protocol exactly when it leaves through `out`. -/
theorem protocolKept_step_iff (h : ProtocolKept s) (hstep : lockStep E md5 s a = .ok s') :
    ProtocolKept s' ↔ LeavesThroughOut s a := by
  obtain ⟨hiff, hcalls⟩ := locksHeld_step_iff h.1 hstep
  exact ⟨fun h' => hiff.mp h'.1, fun hout => ⟨hiff.mpr hout, hcalls hout h.2⟩⟩

theorem protocolKept_start (key : Option Key) {inodes : ℕ → Inode}
    (hrest : ∀ file index, (inodes file).holds index = 0) :
    ProtocolKept ⟨.start key inodes, []⟩ :=
  ⟨⟨nofun, fun _ => hrest _ _, nofun⟩, List.forall_mem_nil _⟩

/-- **The page lock protocol.**  Start with no write in progress and every page at rest, and
take any run — page reads, writes by any number of writers, writeback, reclaim and key ioctls,
interleaved, with any failing calls.  The protocol is kept after every step if and only if every
page read finds a key and every `write_end` a lower file.  Where it is kept and no write is in
progress, no page of the cache is locked or referenced. -/
theorem locks_held_iff (E : BlockCipher) (md5 : List Byte → Key) (key : Option Key)
    {inodes : ℕ → Inode} (hrest : ∀ file index, (inodes file).holds index = 0)
    {as : List LockAction} {s' : LockState}
    (hrun : run (lockStep E md5) ⟨.start key inodes, []⟩ as = .ok s') :
    ((∀ pre, pre <+: as → ∃ t, run (lockStep E md5) ⟨.start key inodes, []⟩ pre = .ok t ∧
        ProtocolKept t) ↔
      Along (lockStep E md5) LeavesThroughOut ⟨.start key inodes, []⟩ as) ∧
    ∀ t, ProtocolKept t → (∀ w, t.mount.writers w = none) →
      ∀ file index page, (t.mount.inodes file).pages index = some page →
        page.locked = false ∧ page.refs = 0 :=
  ⟨forall_prefix_iff_of_run (fun _ _ _ => protocolKept_step_iff)
      (protocolKept_start key hrest) hrun,
    fun _ hkept hidle _ _ _ hpage => hkept.1.at_rest hidle hpage⟩

end Runs

/-- A page read of the second page of file 0, every call succeeding. -/
def readSecondPage : LockAction :=
  .readpage 0 .plain 1 ⟨some fun _ => 0, .full, .succeed⟩ fun _ => 0

/-- The protocol over a write during which another page of the file is read. -/
theorem locks_held_iff_one_write :
    ∃ s', run (lockStep (constCipher 1) fun _ => zeroKey)
        ⟨.start (some zeroKey) fun _ => emptyInode, []⟩
        [.mount (.writeBegin 0 0 .plain firstByte (some fun _ => 0)), readSecondPage,
          .mount endWrite] = .ok s' ∧ s'.calls.length = 3 ∧ ProtocolKept s' := by
  have hrest : ∀ file index, ((fun _ => emptyInode : ℕ → Inode) file).holds index = 0 :=
    fun _ _ => rfl
  have hrun : run (lockStep (constCipher 1) fun _ => zeroKey)
      ⟨.start (some zeroKey) fun _ => emptyInode, []⟩
      [.mount (.writeBegin 0 0 .plain firstByte (some fun _ => 0)), readSecondPage,
        .mount endWrite] = .ok _ := rfl
  refine ⟨_, hrun, rfl, ?_⟩
  have hout : Along (lockStep (constCipher 1) fun _ => zeroKey) LeavesThroughOut
      ⟨.start (some zeroKey) fun _ => emptyInode, []⟩
      [.mount (.writeBegin 0 0 .plain firstByte (some fun _ => 0)), readSecondPage,
        .mount endWrite] := by
    refine ⟨trivial, fun s₁ h₁ => ?_⟩
    cases h₁
    refine ⟨nofun, fun s₂ h₂ => ?_⟩
    cases h₂
    refine ⟨fun wr hwr => ?_, fun _ _ => trivial⟩
    cases hwr
    exact nofun
  obtain ⟨t, ht, hkept⟩ := (locks_held_iff _ _ _ hrest hrun).1.mpr hout _ (List.prefix_refl _)
  obtain rfl := Except.ok.inj (hrun.symm.trans ht)
  exact hkept

/-- A page read without a key returns with the page still locked, though nothing is in
progress: the next read of the page waits for ever. -/
theorem page_left_locked_without_key :
    ∃ s', run (lockStep (constCipher 1) fun _ => zeroKey) ⟨.start none fun _ => emptyInode, []⟩
        [readSecondPage] = .ok s' ∧
      (∀ w, s'.mount.writers w = none) ∧
      (∃ page, (s'.mount.inodes 0).pages 1 = some page ∧ page.locked = true) ∧
      ¬ ProtocolKept s' ∧ lockStep (constCipher 1) (fun _ => zeroKey) s' readSecondPage =
        .error .blocked := by
  refine ⟨_, rfl, fun _ => rfl, ⟨_, rfl, rfl⟩, fun hkept => ?_, rfl⟩
  obtain ⟨hlocked, -⟩ := @LocksHeld.at_rest _ hkept.1 (fun _ => rfl) 0 1 _ rfl
  cases hlocked

end Wrapfs
