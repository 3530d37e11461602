import Mathlib
import Wrapfs.Foundations.Runs
import Wrapfs.Namespace.Balance
import Wrapfs.Namespace.Symlink

/-!
# The buffers of the links on a path (`wrapfs_follow_link`, `wrapfs_put_link`)

`wrapfs_follow_link` reads the target of a link into a buffer, and `wrapfs_put_link` frees the
buffer when the target has been walked.  In between, other links may have been followed and put,
and some of the calls may have failed.  The two functions do not hand the buffer to each other:
the cookie is always `NULL`.  `wrapfs_put_link` takes from the `nameidata` whatever name is saved
at the present depth, and frees it unless it is an error pointer.

So that the right buffer is freed, once, is a fact about both functions and the order in which the
VFS calls them, and not about either alone.  It could go wrong in three ways: a buffer freed on
the error path of `wrapfs_follow_link` and again by `wrapfs_put_link`; one that is overwritten in
`saved_names` before it is freed; one that is left when the walk ends.

## The walk

A walk is here any sequence of links entered and left, as `fs/namei.c` nests them, in the middle
of anything else that happens to the directories.  Three things about the VFS are built in:

* the saved name of a depth is cleared before `->follow_link` is called (`enterLink`);
* the target is walked one depth further in, and `->put_link` is called at the depth at which
  `->follow_link` was (`leaveLink`);
* `->put_link` is called whenever the cookie is not an error pointer, and so here always, also
  after a failed `->follow_link`.

`followLink` is `wrapfsFollowLink` of `Wrapfs.Namespace.Symlink` with its buffer on the ledger;
what it writes into the buffer, and past it, is that module's subject.

## The invariant

`LinksInv`: the links being followed have buffers of their own, if they have one, and there are no
more of them than `saved_names` has room for.  What is held is then the sum over the saved names
up to the present depth (`Walk.expected`).  The entries above that depth may name buffers that are
freed already: they are never looked at before they have been set again.

`link_buffers_accounted` says that the buffers allocated are always those of the links that are
being followed.
-/

namespace Wrapfs.Namespace

open Ledger Runs

variable {σ ι : Type}

/-! ## The walk -/

/-- An entry of `saved_names`. -/
inductive SavedName where
  | null
  | buf (id : ℕ)
  | err (e : Errno)

/-- A path walk: the directories, and `saved_names` and `depth` of its `nameidata`. -/
structure Walk (σ ι : Type) where
  ns : Ns σ ι
  saved : ℕ → SavedName
  depth : ℕ
  /-- buffers are numbered in the order of their allocation -/
  nextBuf : ℕ

/-- What a walk takes. -/
inductive WalkRes where
  | ns (r : Res)
  | linkBuf (id : ℕ)
  deriving DecidableEq

theorem WalkRes.ns_injective : Function.Injective WalkRes.ns := fun _ _ h => WalkRes.ns.inj h

abbrev WalkOp (σ ι α : Type) : Type := Op (Walk σ ι) WalkRes Fault α

def Walk.withNs (ns : Ns σ ι) (s : Walk σ ι) : Walk σ ι := { s with ns := ns }

/-- Run a directory operation. -/
def inWalkNs {α : Type} (m : NsOp σ ι α) : WalkOp σ ι α := zoom Walk.ns Walk.withNs WalkRes.ns m

/-- The saved name of the present depth changes. -/
def Walk.save (s : Walk σ ι) (p : SavedName) : Walk σ ι :=
  { s with saved := Function.update s.saved s.depth p }

/-- `nd_set_link`. -/
def ndSetLink (p : SavedName) : WalkOp σ ι Unit := change fun s => s.save p

/-- `nd_get_link`. -/
def ndGetLink : WalkOp σ ι SavedName := do
  let s ← look
  pure (s.saved s.depth)

/-- The answers `wrapfs_follow_link` gets, for a link to `target`. -/
structure FollowCalls where
  kmalloc : Option (ℕ → Byte)
  fails : Option Errno
  target : LinkTarget

/-- `wrapfs_follow_link` with its buffer. -/
def followLink (V : LowerVfs σ ι) (d : ℕ) (c : FollowCalls) : WalkOp σ ι Unit :=
  match c.kmalloc with
  | none => ndSetLink (.err .ENOMEM)
  | some stale => do
      let s ← look
      acquire (.linkBuf s.nextBuf)
      change fun t => { t with nextBuf := s.nextBuf + 1 }
      let r ← inWalkNs (wrapfsFollowLink V d (some stale) c.fails c.target)
      match r.link with
      | .error e => do
          release (.linkBuf s.nextBuf)
          ndSetLink (.err e)
      | .ok _ => ndSetLink (.buf s.nextBuf)

/-- `wrapfs_put_link`. -/
def wrapfsPutLink : WalkOp σ ι Unit := do
  let buf ← ndGetLink
  match buf with
  | .err _ => pure ()
  -- `kfree(NULL)`
  | .null => pure ()
  | .buf id => release (.linkBuf id)

/-- `MAX_NESTED_LINKS`; there is one more entry of `saved_names`. -/
def maxNestedLinks : ℕ := 8

/-- The VFS follows a link, at the next depth from then on.  As the cookie is never an error,
`->put_link` will be called whatever `->follow_link` has come to. -/
def enterLink (V : LowerVfs σ ι) (d : ℕ) (c : FollowCalls) : WalkOp σ ι Unit := do
  let s ← look
  -- `-ELOOP`
  if maxNestedLinks < s.depth then pure ()
  else do
    ndSetLink .null
    followLink V d c
    change fun s => { s with depth := s.depth + 1 }

/-- The VFS has walked a link's target. -/
def leaveLink : WalkOp σ ι Unit := do
  let s ← look
  match s.depth with
  | 0 => pure ()
  | depth + 1 => do
      change fun s => { s with depth := depth }
      wrapfsPutLink

/-- What happens during a walk. -/
inductive WalkCall (σ ι : Type) where
  | enter (d : ℕ) (c : FollowCalls)
  | leave
  /-- anything else that happens to the directories -/
  | other (ns : Ns σ ι)

/-- The code that is run. -/
def walkOp (V : LowerVfs σ ι) : WalkCall σ ι → WalkOp σ ι Unit
  | .enter d c => enterLink V d c
  | .leave => leaveLink
  | .other ns => change (Walk.withNs ns)

/-- A walk with the log of everything taken and given back. -/
structure LoggedWalk (σ ι : Type) where
  walk : Walk σ ι
  log : List (Event WalkRes)

/-- No link has been followed yet. -/
def LoggedWalk.start (ns : Ns σ ι) : LoggedWalk σ ι := ⟨⟨ns, fun _ => .null, 0, 0⟩, []⟩

/-- One call. -/
def walkStep (V : LowerVfs σ ι) (s : LoggedWalk σ ι) (a : WalkCall σ ι) :
    Except Fault (LoggedWalk σ ι) :=
  match walkOp V a s.walk with
  | .done _ walk events => .ok ⟨walk, s.log ++ events⟩
  | .fault e _ => .error e

/-! ## What the links hold -/

/-- What a saved name holds. -/
def linkRefs (_ : ℕ) : SavedName → Multiset WalkRes
  | .buf id => {.linkBuf id}
  | _ => 0

/-- What the links being followed hold. -/
def Walk.expected (s : Walk σ ι) : Multiset WalkRes := heldBy linkRefs s.saved s.depth

/-- Between calls: each link being followed has a buffer of its own, if it has one. -/
structure LinksInv (s : Walk σ ι) : Prop where
  allocated : ∀ i id, i < s.depth → s.saved i = .buf id → id < s.nextBuf
  distinct : ∀ i j id, i < s.depth → j < s.depth → s.saved i = .buf id → s.saved j = .buf id → i = j
  depth : s.depth ≤ maxNestedLinks + 1

section Specs

variable {s : Walk σ ι} {held : Multiset WalkRes}

/-- Balanced directory code. -/
theorem ensures_inWalkNs {α τ : Type} {view : Ns σ ι → τ} {m : NsOp σ ι α}
    (hm : Balanced view m) :
    Ensures (inWalkNs m) s held fun _ s' held' => held' = held ∧ ∃ ns, s' = s.withNs ns := by
  have hzoom : Ensures (inWalkNs m) s ((0 : Multiset Res).map WalkRes.ns + held) _ :=
    (hm s.ns 0).zoom WalkRes.ns_injective held
  rw [Multiset.map_zero, zero_add] at hzoom
  refine hzoom.mono ?_
  rintro _ _ _ ⟨ns, _, ⟨rfl, -⟩, rfl, rfl⟩
  exact ⟨by rw [Multiset.map_zero, zero_add], ns, rfl⟩

/-- Following a link holds nothing of the directories afterwards. -/
theorem balanced_wrapfsFollowLink (V : LowerVfs σ ι) (d : ℕ) (kmalloc : Option (ℕ → Byte))
    (fails : Option Errno) (target : LinkTarget) :
    Balanced Ns.refView (wrapfsFollowLink V d kmalloc fails target) := by
  cases kmalloc with
  | none => exact .pure _
  | some stale => exact .bind (balanced_wrapfsReadlink V d _) fun _ => .pure _

/-- **`wrapfs_follow_link`** saves a new buffer, which it has allocated, or an error, and then it
holds nothing. -/
theorem ensures_followLink (V : LowerVfs σ ι) (d : ℕ) (c : FollowCalls) :
    Ensures (followLink V d c) s held fun _ s' held' =>
      ∃ ns p nextBuf, s' = { s.save p with ns := ns, nextBuf := nextBuf } ∧
        held' = linkRefs s.depth p + held ∧ s.nextBuf ≤ nextBuf ∧
        ∀ id, p = .buf id → id = s.nextBuf ∧ nextBuf = s.nextBuf + 1 := by
  unfold followLink
  cases c.kmalloc with
  | none =>
      simp only [ndSetLink, ensures_change]
      refine ⟨s.ns, .err .ENOMEM, s.nextBuf, rfl, (zero_add held).symm, le_rfl, fun id h => ?_⟩
      cases h
  | some stale =>
      simp only [ensures_bind, ensures_look, ensures_acquire, ensures_change]
      refine (ensures_inWalkNs (balanced_wrapfsFollowLink V d (some stale) c.fails c.target)).mono ?_
      rintro r _ _ ⟨rfl, ns, rfl⟩
      cases r.link with
      | error e =>
          simp only [ndSetLink, ensures_bind, ensures_release_head, ensures_change]
          refine ⟨ns, .err e, s.nextBuf + 1, rfl, (zero_add held).symm, Nat.le_succ _,
            fun id h => ?_⟩
          cases h
      | ok mem =>
          simp only [ndSetLink, ensures_change]
          refine ⟨ns, .buf s.nextBuf, s.nextBuf + 1, rfl, ?_, Nat.le_succ _, fun id h => ?_⟩
          · rw [linkRefs, Multiset.singleton_add]
          · obtain rfl := SavedName.buf.inj h
            exact ⟨rfl, rfl⟩

end Specs

/-! ## One call -/

section Step

variable {s : Walk σ ι}

/-- One more link is being followed. -/
theorem LinksInv.push (hs : LinksInv s) (hdepth : ¬ maxNestedLinks < s.depth) {p : SavedName}
    {ns : Ns σ ι} {nextBuf : ℕ} (hle : s.nextBuf ≤ nextBuf)
    (hbuf : ∀ id, p = .buf id → id = s.nextBuf ∧ nextBuf = s.nextBuf + 1) :
    LinksInv { s.save p with ns := ns, nextBuf := nextBuf, depth := s.depth + 1 } := by
  -- an entry is the new one, or an old one with an older buffer
  have hcases : ∀ i id, i < s.depth + 1 → Function.update s.saved s.depth p i = .buf id →
      i = s.depth ∧ id = s.nextBuf ∧ nextBuf = s.nextBuf + 1 ∨
        i < s.depth ∧ s.saved i = .buf id ∧ id < s.nextBuf := by
    intro i id hi hsaved
    by_cases hnew : i = s.depth
    · subst hnew
      rw [Function.update_self] at hsaved
      exact Or.inl ⟨rfl, hbuf id hsaved⟩
    · rw [Function.update_of_ne hnew] at hsaved
      have hlt : i < s.depth := by omega
      exact Or.inr ⟨hlt, hsaved, hs.allocated i id hlt hsaved⟩
  refine ⟨fun i id hi hsaved => ?_, fun i j id hi hj hsi hsj => ?_, ?_⟩
  · show id < nextBuf
    rcases hcases i id hi hsaved with ⟨-, rfl, hnext⟩ | ⟨-, -, hid⟩
    · omega
    · omega
  · rcases hcases i id hi hsi with ⟨rfl, hid, -⟩ | ⟨hilt, hiold, hid⟩
    · rcases hcases j id hj hsj with ⟨rfl, -, -⟩ | ⟨-, -, hid'⟩
      · rfl
      · omega
    · rcases hcases j id hj hsj with ⟨-, hid', -⟩ | ⟨hjlt, hjold, -⟩
      · omega
      · exact hs.distinct i j id hilt hjlt hiold hjold
  · show s.depth + 1 ≤ maxNestedLinks + 1
    omega

/-- One fewer. -/
theorem LinksInv.pop (hs : LinksInv s) {depth : ℕ} (hdepth : s.depth = depth + 1) :
    LinksInv { s with depth := depth } := by
  have hlt : ∀ {i}, i < depth → i < s.depth := fun hi => by omega
  refine ⟨fun i id hi => hs.allocated i id (hlt hi),
    fun i j id hi hj => hs.distinct i j id (hlt hi) (hlt hj), ?_⟩
  have hmax := hs.depth
  show depth ≤ maxNestedLinks + 1
  omega

/-- What is held, with the innermost link taken apart. -/
theorem expected_pop {depth : ℕ} (hdepth : s.depth = depth + 1) :
    s.expected = linkRefs depth (s.saved depth) + heldBy linkRefs s.saved depth := by
  have hsucc := heldBy_succ linkRefs s.saved depth (s.saved depth)
  rw [Function.update_eq_self] at hsucc
  rw [Walk.expected, hdepth, hsucc, add_comm]

/-- **Every call** keeps the account. -/
theorem ensures_walkOp (V : LowerVfs σ ι) (hs : LinksInv s) (a : WalkCall σ ι) :
    Ensures (walkOp V a) s s.expected fun _ s' held' => LinksInv s' ∧ held' = s'.expected := by
  cases a with
  | enter d c =>
      simp only [walkOp, enterLink, ensures_bind, ensures_look, ensures_ite, ensures_pure]
      split
      · exact ⟨hs, trivial⟩
      rename_i hdepth
      simp only [ndSetLink, ensures_change]
      refine (ensures_followLink V d c).mono ?_
      rintro _ _ _ ⟨ns, p, nextBuf, rfl, rfl, hle, hbuf⟩
      have hsave : (s.save .null).save p = s.save p := by
        simp only [Walk.save, Function.update_idem]
      rw [hsave]
      refine ⟨hs.push hdepth hle hbuf, ?_⟩
      refine (add_comm _ _).trans ?_
      exact (heldBy_succ linkRefs s.saved s.depth p).symm
  | leave =>
      simp only [walkOp, leaveLink, ensures_bind, ensures_look]
      cases hdepth : s.depth with
      | zero =>
          rw [ensures_pure]
          exact ⟨hs, rfl⟩
      | succ depth =>
          have hpop := hs.pop hdepth
          simp only [wrapfsPutLink, ndGetLink, ensures_bind, ensures_change, ensures_look,
            ensures_pure, expected_pop hdepth]
          cases s.saved depth with
          | null =>
              rw [ensures_pure]
              exact ⟨hpop, zero_add _⟩
          | err e =>
              rw [ensures_pure]
              exact ⟨hpop, zero_add _⟩
          | buf id =>
              rw [linkRefs, Multiset.singleton_add, ensures_release_head]
              exact ⟨hpop, rfl⟩
  | other ns =>
      rw [walkOp, ensures_change]
      exact ⟨⟨hs.allocated, hs.distinct, hs.depth⟩, rfl⟩

end Step

/-! ## Runs -/

section Run

variable (V : LowerVfs σ ι)

/-- Between calls exactly what is expected is held. -/
structure LinksLogInv (s : LoggedWalk σ ι) : Prop where
  inv : LinksInv s.walk
  held : replay 0 s.log = some s.walk.expected

/-- Nothing is held before the walk. -/
theorem linksLogInv_start (ns : Ns σ ι) : LinksLogInv (.start ns) := by
  refine ⟨⟨fun i id hi => ?_, fun i j id hi => ?_, Nat.zero_le _⟩, rfl⟩
  · cases hi
  · cases hi

/-- One call keeps what is on the log in step with what is expected. -/
theorem LinksLogInv.step {s s' : LoggedWalk σ ι} {a : WalkCall σ ι} (hs : LinksLogInv s)
    (hstep : walkStep V s a = .ok s') : LinksLogInv s' := by
  have hcall := ensures_walkOp V hs.inv a
  unfold walkStep at hstep
  cases hop : walkOp V a s.walk with
  | fault e es =>
      rw [hop] at hstep
      cases hstep
  | done v walk es =>
      rw [hop] at hstep
      cases hstep
      obtain ⟨held, hreplay, hinv, rfl⟩ := hcall.done hop
      exact ⟨hinv, (replay_append hs.held).trans hreplay⟩

/-- A buffer is held once for the link it belongs to. -/
theorem LinksInv.count_expected {s : Walk σ ι} (hs : LinksInv s) {i id : ℕ} (hi : i < s.depth)
    (hsaved : s.saved i = .buf id) : s.expected.count (.linkBuf id) = 1 := by
  have hcount : ∀ j < s.depth, (linkRefs j (s.saved j)).count (.linkBuf id) =
      if j = i then 1 else 0 := by
    intro j hj
    by_cases hji : j = i
    · rw [if_pos hji, hji, hsaved]
      exact Multiset.count_singleton_self _
    · rw [if_neg hji]
      cases hj' : s.saved j with
      | buf id' =>
          have hid : id' ≠ id := by
            rintro rfl
            exact hji (hs.distinct j i id' hj hi hj' hsaved)
          simp [linkRefs, Ne.symm hid]
      | _ => rfl
  rw [Walk.expected, count_heldBy linkRefs hcount, Finset.card_eq_one]
  refine ⟨i, ?_⟩
  ext j
  simp only [Finset.mem_filter, Finset.mem_range, Finset.mem_singleton]
  refine ⟨fun h => h.2, ?_⟩
  rintro rfl
  exact ⟨hi, rfl⟩

/-- **Link buffers.**  In every walk, with links nested in any way, any failures, and anything else
happening to the directories in between: `wrapfs_put_link` never frees what is not allocated;
`saved_names` is used inside its bounds; between calls each link being followed has its own buffer
or none, nothing else is held, and so nothing is left when no link is being followed any more. -/
theorem link_buffers_accounted (ns : Ns σ ι) {as : List (WalkCall σ ι)} {s : LoggedWalk σ ι}
    (hrun : run (walkStep V) (.start ns) as = .ok s) :
    ∃ held, replay 0 s.log = some held ∧
      (∀ i id, i < s.walk.depth → s.walk.saved i = .buf id → held.count (.linkBuf id) = 1) ∧
      (∀ r ∈ held, ∃ i id, i < s.walk.depth ∧ s.walk.saved i = .buf id ∧ r = .linkBuf id) ∧
      (s.walk.depth = 0 → held = 0) ∧ s.walk.depth ≤ maxNestedLinks + 1 ∧
      ∀ a e events, walkOp V a s.walk = .fault e events →
        ∃ held', replay held events = some held' := by
  have hinv : LinksLogInv s :=
    run_invariant (fun _ _ _ hs hstep => LinksLogInv.step V hs hstep) (linksLogInv_start ns) hrun
  refine ⟨_, hinv.held, fun i id hi hsaved => hinv.inv.count_expected hi hsaved, fun r hr => ?_,
    fun hzero => ?_, hinv.inv.depth,
    fun a e events hfault => (ensures_walkOp V hinv.inv a).fault hfault⟩
  · obtain ⟨i, hi, hmem⟩ := (mem_heldBy linkRefs).mp hr
    cases hsaved : s.walk.saved i with
    | buf id =>
        rw [hsaved] at hmem
        exact ⟨i, id, hi, hsaved, Multiset.mem_singleton.mp hmem⟩
    | _ =>
        rw [hsaved] at hmem
        cases hmem
  · rw [Walk.expected, hzero]
    rfl

end Run

/-- A link is followed; on the way through its target another one is met, which cannot be read. -/
def nestedLinks : List (WalkCall LowerTree LowerInode) :=
  [.enter 1 ⟨some fun _ => 7, none, letters 3⟩,
    .enter 1 ⟨some fun _ => 7, some Errno.EACCES, letters 3⟩, .leave]

/-- The buffer of the first link is still there, that of the second has gone. -/
theorem link_buffers_accounted_nested :
    ∃ s, run (walkStep (treeVfs 0)) (.start linkNs) nestedLinks = .ok s ∧
      ∃ held, replay 0 s.log = some held ∧ held.count (.linkBuf 0) = 1 ∧ .linkBuf 1 ∉ held := by
  obtain ⟨s, hrun, hdepth, hsaved⟩ : ∃ s, run (walkStep (treeVfs 0)) (.start linkNs) nestedLinks =
      .ok s ∧ s.walk.depth = 1 ∧ s.walk.saved 0 = .buf 0 := ⟨_, rfl, rfl, rfl⟩
  obtain ⟨held, hreplay, hone, honly, -⟩ := link_buffers_accounted (treeVfs 0) linkNs hrun
  refine ⟨s, hrun, held, hreplay, hone 0 0 (by omega) hsaved, fun hmem => ?_⟩
  obtain ⟨i, id, hi, hid, hres⟩ := honly _ hmem
  obtain rfl : i = 0 := by omega
  cases hres
  cases hsaved.symm.trans hid

end Wrapfs.Namespace
