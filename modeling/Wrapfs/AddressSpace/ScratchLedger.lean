import Wrapfs.AddressSpace.Operations
import Wrapfs.Foundations.Runs
import Wrapfs.Ioctl

/-!
# The scratch ledger

`wrapfs_readpage`, `wrapfs_write_end` and `wrapfs_unlocked_ioctl` take scratch pages, page
mappings, transforms and buffers, and each call's trace of them is part of its model.  Here the
traces of a whole run are put one after the other and replayed against an empty ledger.

`Settled` is what is asked of the ledger whenever no call is in progress: nothing was released
that was not held, and nothing is outstanding but the one buffer that *is* the mount's key.  The
buffer is counted by the key that is set, not by the ioctls that were made, so that a key that is
replaced without its buffer being freed shows as a buffer too many.

## What the calls leave behind

No exit frees the scratch page, the cipher transform, or any buffer of the ioctl but `key_struc`
on one error path.  So the calls that keep the ledger settled are the ones that take nothing, or
only the page mapping of a write without a key (`KeepsLedger`), and `settled_iff` says that these
are all of them: over any run, the ledger is settled after every call if and only if every call is
one of these.

The other way a call can fail is by releasing too much: without a scratch page the `out` labels of
both page operations still unmap it.  `Overruns` has both ways, and `scratchCall_cases` says that
every call either keeps the ledger and the key, or overruns it from any settled state.

`scratchPages_grow` is how much is lost: one scratch page for each page read or written.  The
memory is gone until the machine is rebooted, since nothing in the module keeps a pointer to it.
-/

namespace Wrapfs

open Ledger Runs

/-! ## The machine -/

/-- A call that takes scratch resources.  A page operation comes with the state of the file it
is made on, which may be any. -/
inductive ScratchCall where
  | readpage (file : OpenFile) (c : ReadpageCalls) (ino : Inode) (index : ℕ) (page : CachePage)
  | writeEnd (file : OpenFile) (c : WriteEndCalls) (ino : Inode) (pos copied index : ℕ)
      (page : CachePage)
  | ioctl (c : IoctlCalls) (cmd : IoctlCmd)

/-- The mount's key, and the traces of all calls so far. -/
structure ScratchState where
  key : Option Key
  trace : List (Event Scratch)

/-- A new mount: no key, nothing taken. -/
def ScratchState.fresh : ScratchState := ⟨none, []⟩

/-- The mount's key after a call, and the call's own trace. -/
def scratchCall (E : BlockCipher) (md5 : List Byte → Key) (key : Option Key) :
    ScratchCall → Except Fault (Option Key × List (Event Scratch))
  | .readpage file c ino index page =>
      match wrapfsReadpage E key file c ino index page with
      | .error fault => .error fault
      | .ok r => .ok (key, r.scratch)
  | .writeEnd file c ino pos copied index page =>
      match wrapfsWriteEnd E key file c ino pos copied index page with
      | .error fault => .error fault
      | .ok r => .ok (key, r.scratch)
  | .ioctl c cmd =>
      match wrapfsUnlockedIoctl md5 c key cmd with
      | .error fault => .error fault
      | .ok r => .ok (r.key, r.scratch)

/-- One call, with its trace at the end of the traces so far. -/
def scratchStep (E : BlockCipher) (md5 : List Byte → Key) (s : ScratchState)
    (a : ScratchCall) : Except Fault ScratchState :=
  match scratchCall E md5 s.key a with
  | .error fault => .error fault
  | .ok (key, es) => .ok ⟨key, s.trace ++ es⟩

/-! ## The requirement -/

/-- The buffer that is the current key: the `integ_val` of the ioctl that set it. -/
def keyBuffer : Option Key → Multiset Scratch
  | none => 0
  | some _ => {.integVal}

/-- Nothing was released that was not held, and only the key's buffer is outstanding. -/
def Settled (s : ScratchState) : Prop :=
  replay 0 s.trace = some (keyBuffer s.key)

instance (s : ScratchState) : Decidable (Settled s) :=
  inferInstanceAs (Decidable (_ = _))

/-- The calls that keep the ledger: page operations without a key, a `write_end` that leaves at
once for want of a lower file, an ioctl whose first allocation fails. -/
def KeepsLedger (key : Option Key) : ScratchCall → Prop
  | .readpage .. => key = none
  | .writeEnd file .. => key = none ∨ file.info = some none
  | .ioctl c _ => c.integVal = false

/-- A new mount. -/
theorem settled_fresh : Settled .fresh := rfl

/-! ## What each call leaves outstanding -/

/-- Replaying `es` leaves something besides the key's buffer, or fails because a page is
unmapped that was never mapped. -/
inductive Overruns (key : Option Key) : Option Key → List (Event Scratch) → Prop where
  | unmapped : Overruns key key [.release .mapDst]
  | sameKey {es : List (Event Scratch)} {left : Multiset Scratch}
      (h : replay 0 es = some left) (hleft : left ≠ 0) : Overruns key key es
  | notBuffer {key' : Option Key} {es : List (Event Scratch)} {left : Multiset Scratch}
      {r : Scratch} (h : replay 0 es = some left) (hr : r ∈ left) (hne : r ≠ .integVal) :
      Overruns key key' es

/-- The key's buffer is the `integ_val` of an ioctl. -/
theorem mem_keyBuffer {key : Option Key} {r : Scratch} (h : r ∈ keyBuffer key) :
    r = .integVal := by
  cases key with
  | none => exact absurd h (Multiset.notMem_zero r)
  | some k => exact Multiset.mem_singleton.mp h

/-- Either way the ledger is not settled. -/
theorem Overruns.replay_ne {key key' : Option Key} {es : List (Event Scratch)}
    (h : Overruns key key' es) : replay (keyBuffer key) es ≠ some (keyBuffer key') := by
  intro heq
  cases h with
  | unmapped =>
      have hmem : Scratch.mapDst ∉ keyBuffer key := fun hmem => nomatch mem_keyBuffer hmem
      rw [replay, if_neg hmem] at heq
      cases heq
  | sameKey h hleft =>
      have hframe := replay_frame (keyBuffer key) h
      rw [Multiset.zero_add, heq, Option.some.injEq] at hframe
      exact hleft (left_eq_add.mp (hframe.trans (add_comm _ _)))
  | notBuffer h hr hne =>
      have hframe := replay_frame (keyBuffer key) h
      rw [Multiset.zero_add, heq, Option.some.injEq] at hframe
      exact hne (mem_keyBuffer (hframe ▸ Multiset.mem_add.mpr (Or.inl hr)))

/-- The trace of a page operation that got its scratch page: the cipher runs between the two
mappings, and the page itself is never freed. -/
theorem replay_mapped (E : BlockCipher) (c : CipherCalls) (dst src : Page) (k : Key) :
    ∃ left, replay 0 ([.acquire .dstPage, .acquire .mapDst, .acquire .mapPage] ++
        (cryptPage E c dst src k).scratch ++ [.release .mapPage, .release .mapDst]) =
      some (.dstPage ::ₘ left) := by
  have htrace : (cryptPage E c dst src k).scratch = [] ∨
      (cryptPage E c dst src k).scratch = [.acquire .cipherTfm] := by
    obtain ⟨alloc, setkey, crypt⟩ := c
    cases alloc with
    | some e => exact Or.inl rfl
    | none =>
        right
        cases setkey with
        | some e => rfl
        | none =>
            cases crypt with
            | some failure => rfl
            | none => rfl
  rcases htrace with h | h
  · rw [h]
    exact ⟨0, by decide⟩
  · rw [h]
    exact ⟨{.cipherTfm}, by decide⟩

section Calls

variable {E : BlockCipher} {md5 : List Byte → Key} {key : Option Key}

/-- **All that `wrapfs_readpage` can do to the ledger.** -/
theorem scratch_wrapfsReadpage {file : OpenFile} {c : ReadpageCalls} {ino : Inode} {index : ℕ}
    {page : CachePage} {r : PageOp}
    (h : wrapfsReadpage E key file c ino index page = .ok r) :
    key = none ∧ r.scratch = [] ∨
      key ≠ none ∧ c.allocPage = none ∧ r.scratch = [.release .mapDst] ∨
      key ≠ none ∧ c.allocPage ≠ none ∧
        ∃ left, replay 0 r.scratch = some (.dstPage ::ₘ left) := by
  cases key with
  | none =>
      cases h
      exact Or.inl ⟨rfl, rfl⟩
  | some k =>
      right
      cases halloc : c.allocPage with
      | none =>
          simp only [wrapfsReadpage, halloc] at h
          cases h
          exact Or.inl ⟨nofun, rfl, rfl⟩
      | some stale =>
          refine Or.inr ⟨nofun, nofun, ?_⟩
          rcases hinfo : file.info with - | - | f
          · simp only [wrapfsReadpage, halloc, hinfo] at h
            cases h
            exact ⟨0, by simp [readpageOut]⟩
          · simp only [wrapfsReadpage, halloc, hinfo] at h
            cases h
          · simp only [wrapfsReadpage, halloc, hinfo] at h
            cases h
            obtain ⟨left, hleft⟩ := replay_mapped E c.cipher page.data _ k
            refine ⟨left, ?_⟩
            rwa [readpageOut, List.append_assoc]

/-- **All that `wrapfs_write_end` can do.** -/
theorem scratch_wrapfsWriteEnd {file : OpenFile} {c : WriteEndCalls} {ino : Inode}
    {pos copied index : ℕ} {page : CachePage} {r : WriteEnd}
    (h : wrapfsWriteEnd E key file c ino pos copied index page = .ok r) :
    (key = none ∨ file.info = some none) ∧ replay 0 r.scratch = some 0 ∨
      (key ≠ none ∧ file.info ≠ some none) ∧ c.allocPage = none ∧
        r.scratch = [.release .mapDst] ∨
      (key ≠ none ∧ file.info ≠ some none) ∧ c.allocPage ≠ none ∧
        ∃ left, replay 0 r.scratch = some (.dstPage ::ₘ left) := by
  rcases hinfo : file.info with - | - | f
  · simp only [wrapfsWriteEnd, hinfo] at h
    cases h
  · simp only [wrapfsWriteEnd, hinfo] at h
    cases h
    exact Or.inl ⟨Or.inr rfl, rfl⟩
  · cases key with
    | none =>
        simp only [wrapfsWriteEnd, hinfo] at h
        cases h
        refine Or.inl ⟨Or.inl rfl, ?_⟩
        rw [replay_acquire, replay_release_head, replay_nil]
    | some k =>
        right
        cases halloc : c.allocPage with
        | none =>
            simp only [wrapfsWriteEnd, hinfo, halloc] at h
            cases h
            exact Or.inl ⟨⟨nofun, nofun⟩, rfl, rfl⟩
        | some stale =>
            simp only [wrapfsWriteEnd, hinfo, halloc] at h
            cases h
            exact Or.inr ⟨⟨nofun, nofun⟩, nofun, replay_mapped E c.cipher _ _ k⟩

/-- Past `getname` nothing is ever freed but the hash transform of a failed call. -/
theorem scratch_setekeyString {c : IoctlCalls} {len : ℤ} {r : IoctlResult}
    (h : setekeyString md5 c key len = .ok r) (held : Multiset Scratch) :
    ∃ left, replay held r.scratch = some (left + held) := by
  unfold setekeyString at h
  split at h
  · cases h
  · unfold wrapfsComputeMd5 at h
    split_ifs at h
    all_goals
      cases h
      simp only [replay_acquire, replay_release_head, replay_nil, List.cons_append,
        List.nil_append, Option.some.injEq]
      simp only [← Multiset.singleton_add, ← add_assoc]
      exact ⟨_, rfl⟩

/-- **All that `wrapfs_unlocked_ioctl` can do.** -/
theorem scratch_wrapfsUnlockedIoctl {c : IoctlCalls} {cmd : IoctlCmd} {r : IoctlResult}
    (h : wrapfsUnlockedIoctl md5 c key cmd = .ok r) :
    c.integVal = false ∧ r.key = key ∧ r.scratch = [] ∨
      c.integVal = true ∧ Overruns key r.key r.scratch := by
  cases hinteg : c.integVal with
  | false =>
      simp only [wrapfsUnlockedIoctl, hinteg] at h
      cases h
      exact Or.inl ⟨rfl, rfl, rfl⟩
  | true =>
      refine Or.inr ⟨rfl, ?_⟩
      cases cmd with
      | other lower =>
          simp only [wrapfsUnlockedIoctl, hinteg] at h
          cases h
          exact .sameKey (show replay 0 _ = some {.integVal} by simp) (by decide)
      | setekey len =>
          simp only [wrapfsUnlockedIoctl, hinteg, if_true] at h
          split_ifs at h
          · cases hstr : setekeyString md5 c key len with
            | error fault =>
                rw [hstr] at h
                cases h
            | ok r' =>
                rw [hstr] at h
                cases h
                obtain ⟨left, hleft⟩ :=
                  scratch_setekeyString hstr {.keyVal, .keyStruc, .integVal}
                exact .notBuffer (r := .keyStruc) hleft (by simp) (by decide)
          · cases h
            exact .sameKey (show replay 0 _ = some {.keyStruc, .integVal} by simp) (by decide)
          · cases h
            exact .sameKey (show replay 0 _ = some {.integVal} by simp) (by decide)
          · cases h
            exact .sameKey (show replay 0 _ = some {.integVal} by simp) (by decide)

/-- **All a call can do to the ledger.** -/
theorem scratchCall_cases {a : ScratchCall} {key' : Option Key} {es : List (Event Scratch)}
    (h : scratchCall E md5 key a = .ok (key', es)) :
    KeepsLedger key a ∧ key' = key ∧ replay 0 es = some 0 ∨
      ¬ KeepsLedger key a ∧ Overruns key key' es := by
  cases a with
  | readpage file c ino index page =>
      simp only [scratchCall] at h
      split at h
      · cases h
      · rename_i r hr
        cases h
        rcases scratch_wrapfsReadpage hr with
          ⟨hkey, hes⟩ | ⟨hkey, -, hes⟩ | ⟨hkey, -, left, hleft⟩
        · exact Or.inl ⟨hkey, rfl, by rw [hes]; rfl⟩
        · exact Or.inr ⟨hkey, hes ▸ .unmapped⟩
        · exact Or.inr ⟨hkey, .notBuffer hleft (Multiset.mem_cons_self _ _) (by decide)⟩
  | writeEnd file c ino pos copied index page =>
      simp only [scratchCall] at h
      split at h
      · cases h
      · rename_i r hr
        cases h
        rcases scratch_wrapfsWriteEnd hr with
          ⟨hkeep, hes⟩ | ⟨hkeep, -, hes⟩ | ⟨hkeep, -, left, hleft⟩
        · exact Or.inl ⟨hkeep, rfl, hes⟩
        · exact Or.inr ⟨not_or.mpr hkeep, hes ▸ .unmapped⟩
        · exact Or.inr ⟨not_or.mpr hkeep,
            .notBuffer hleft (Multiset.mem_cons_self _ _) (by decide)⟩
  | ioctl c cmd =>
      simp only [scratchCall] at h
      split at h
      · cases h
      · rename_i r hr
        cases h
        rcases scratch_wrapfsUnlockedIoctl hr with ⟨hfail, hkey, hes⟩ | ⟨hok, hover⟩
        · exact Or.inl ⟨hfail, hkey, by rw [hes]; rfl⟩
        · exact Or.inr ⟨fun hfail => (Bool.eq_false_iff.mp hfail) hok, hover⟩

end Calls

/-! ## Runs -/

section Runs

variable {E : BlockCipher} {md5 : List Byte → Key}

/-- A call that returns. -/
theorem scratchStep_eq_ok {s s' : ScratchState} {a : ScratchCall}
    (h : scratchStep E md5 s a = .ok s') :
    ∃ es, scratchCall E md5 s.key a = .ok (s'.key, es) ∧ s'.trace = s.trace ++ es := by
  unfold scratchStep at h
  split at h
  · cases h
  · rename_i key es hcall
    cases h
    exact ⟨es, hcall, rfl⟩

/-- **One call**: it leaves a settled ledger settled exactly when it is one of those that keep
it. -/
theorem settled_step_iff {s s' : ScratchState} {a : ScratchCall} (hs : Settled s)
    (h : scratchStep E md5 s a = .ok s') : Settled s' ↔ KeepsLedger s.key a := by
  obtain ⟨es, hcall, htrace⟩ := scratchStep_eq_ok h
  rw [Settled, htrace, replay_append hs]
  rcases scratchCall_cases hcall with ⟨hkeep, hkey, hes⟩ | ⟨hkeep, hover⟩
  · refine iff_of_true ?_ hkeep
    rw [hkey]
    exact replay_of_balanced hes _
  · exact iff_of_false hover.replay_ne hkeep

/-- **The ledger over a run.**  In any run of page reads, page writes and ioctls, with any
choice of failing steps, the ledger is settled after every call if and only if every call
finds no key (or has no lower file to write to) or fails its first allocation. -/
theorem settled_iff (E : BlockCipher) (md5 : List Byte → Key) {s s' : ScratchState}
    (hs : Settled s) {as : List ScratchCall} (hrun : run (scratchStep E md5) s as = .ok s') :
    (∀ pre, pre <+: as → ∃ t, run (scratchStep E md5) s pre = .ok t ∧ Settled t) ↔
      Along (scratchStep E md5) (fun s => KeepsLedger s.key) s as :=
  forall_prefix_iff_of_run (fun _ _ _ => settled_step_iff) hs hrun

/-- A page operation that finds a key and gets its scratch page. -/
def TakesScratchPage (s : ScratchState) : ScratchCall → Prop
  | .readpage _ c .. => s.key ≠ none ∧ c.allocPage ≠ none
  | .writeEnd file c .. => s.key ≠ none ∧ file.info ≠ some none ∧ c.allocPage ≠ none
  | .ioctl .. => False

/-- Such a call leaves one scratch page more. -/
theorem scratchCall_of_takesScratchPage {s : ScratchState} {a : ScratchCall}
    (ha : TakesScratchPage s a) {key' : Option Key} {es : List (Event Scratch)}
    (h : scratchCall E md5 s.key a = .ok (key', es)) :
    ∃ left, replay 0 es = some (.dstPage ::ₘ left) := by
  cases a with
  | readpage file c ino index page =>
      simp only [scratchCall] at h
      split at h
      · cases h
      · rename_i r hr
        cases h
        rcases scratch_wrapfsReadpage hr with ⟨hkey, -⟩ | ⟨-, halloc, -⟩ | ⟨-, -, hleft⟩
        · exact absurd hkey ha.1
        · exact absurd halloc ha.2
        · exact hleft
  | writeEnd file c ino pos copied index page =>
      simp only [scratchCall] at h
      split at h
      · cases h
      · rename_i r hr
        cases h
        rcases scratch_wrapfsWriteEnd hr with ⟨hkeep, -⟩ | ⟨-, halloc, -⟩ | ⟨-, -, hleft⟩
        · exact absurd hkeep (not_or.mpr ⟨ha.1, ha.2.1⟩)
        · exact absurd halloc ha.2.2
        · exact hleft
  | ioctl c cmd => exact ha.elim

/-- **What is lost**: one scratch page for every page read or written under a key, over any
run of them. -/
theorem scratchPages_grow {s s' : ScratchState} {held : Multiset Scratch}
    (hs : replay 0 s.trace = some held) {as : List ScratchCall}
    (hcalls : Along (scratchStep E md5) TakesScratchPage s as)
    (hrun : run (scratchStep E md5) s as = .ok s') :
    ∃ held', replay 0 s'.trace = some held' ∧
      held.count .dstPage + as.length ≤ held'.count .dstPage := by
  induction as generalizing s held with
  | nil =>
      cases hrun
      exact ⟨held, hs, le_rfl⟩
  | cons a as ih =>
      obtain ⟨t, ht, hrest⟩ := run_cons_eq_ok.mp hrun
      obtain ⟨es, hcall, htrace⟩ := scratchStep_eq_ok ht
      obtain ⟨left, hleft⟩ := scratchCall_of_takesScratchPage hcalls.1 hcall
      -- the call's own trace, on top of what was outstanding before it
      have hheld : replay 0 t.trace = some (.dstPage ::ₘ left + held) := by
        rw [htrace, replay_append hs]
        simpa only [Multiset.zero_add] using replay_frame held hleft
      obtain ⟨held', hheld', hcount⟩ := ih hheld (hcalls.2 t ht) hrest
      refine ⟨held', hheld', ?_⟩
      rw [Multiset.count_add, Multiset.count_cons_self] at hcount
      rw [List.length_cons]
      omega

end Runs

/-! ## From a new mount -/

/-- A read of a page without a key. -/
def keylessRead : ScratchCall :=
  .readpage .plain ⟨none, .full, .succeed⟩ emptyInode 0 ⟨fun _ => 0, false, true, 0⟩

/-- `settled_iff` for two reads and an ioctl that fails at once: nothing is outstanding after
any of them. -/
theorem settled_iff_keyless :
    Settled .fresh ∧ ∀ pre, pre <+: [keylessRead,
        .ioctl ⟨false, true, true, true, true, none, ⟨true, true, true, true⟩, true⟩ (.other none),
        keylessRead] →
      ∃ t, run (scratchStep (constCipher 1) fun _ => zeroKey) .fresh pre = .ok t ∧ Settled t := by
  refine ⟨settled_fresh, (settled_iff (constCipher 1) (fun _ => zeroKey) settled_fresh rfl).mpr ?_⟩
  refine ⟨rfl, fun s₁ h₁ => ⟨rfl, fun s₂ h₂ => ?_⟩⟩
  cases h₁
  cases h₂
  exact ⟨rfl, fun _ _ => trivial⟩

/-- The key is set, every call succeeding. -/
def setKeyCall : ScratchCall :=
  .ioctl ⟨true, true, true, true, true, some ⟨[97], fun _ => 0⟩, ⟨true, true, true, true⟩, true⟩
    (.setekey 1)

/-- A page of an empty file is read; `alloc` is what `alloc_page` returns. -/
def emptyPageRead (alloc : Option Page) : ScratchCall :=
  .readpage .plain ⟨alloc, .full, .succeed⟩ emptyInode 0 ⟨fun _ => 0, false, true, 0⟩

/-- An ioctl that has nothing to do with the key leaves a buffer behind.  Setting the key and
reading one page leaves, besides the key's buffer, four buffers of the ioctl, the hash transform,
the scratch page and the cipher transform.  Where the scratch page cannot be allocated, it is
unmapped all the same. -/
theorem scratch_not_settled :
    (∃ s, run (scratchStep (constCipher 1) fun _ => zeroKey) .fresh
        [.ioctl ⟨true, true, true, true, true, none, ⟨true, true, true, true⟩, true⟩
          (.other none)] = .ok s ∧ s.key = none ∧ replay 0 s.trace = some {.integVal}) ∧
    (∃ s, run (scratchStep (constCipher 1) fun _ => zeroKey) .fresh
        [setKeyCall, emptyPageRead (some fun _ => 0)] = .ok s ∧ s.key = some zeroKey ∧
      replay 0 s.trace = some {.cipherTfm, .dstPage, .md5Digest, .hashTfm, .nameBuf, .keyVal,
        .keyStruc, .integVal} ∧ ¬ Settled s) ∧
    ∃ s, run (scratchStep (constCipher 1) fun _ => zeroKey) .fresh
        [setKeyCall, emptyPageRead none] = .ok s ∧ replay 0 s.trace = none := by
  refine ⟨⟨_, rfl, rfl, by decide⟩, ⟨_, rfl, rfl, by decide, by decide⟩, ⟨_, rfl, by decide⟩⟩

end Wrapfs
