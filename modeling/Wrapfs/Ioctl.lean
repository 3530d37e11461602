import Wrapfs.Crypto

/-!
# The key ioctl (`file.c`, `md5.c`)

`WRAPFS_SETEKEY` hands the mount a string; its MD5 becomes the key, and the string `"0"` clears
it. `wrapfsComputeMd5` and `wrapfsUnlockedIoctl` follow the source exit by exit, with the answers
of every allocation and hash call as an argument and the scratch buffers as a trace.  The hash
function itself is a parameter: nothing that is proved here depends on its being MD5, and that it
may be any function is what makes `SetekeyFaithful` say which bytes are hashed.

## What the code reads

The string is copied by `getname` into a buffer of its own, but the number of bytes hashed is the
user's `len`, which nothing compares with the string.  Past the terminator the buffer holds
whatever it held before; `GetnameBuf.bytes` keeps those bytes in the model.  `len` is an `int`. It
is used as the size of an allocation, `keyLen + 1`, which refuses everything below -1 and the one
length at which the sum overflows (`keyValSizeOk`); the length -1 passes, and is then the number
of bytes to hash.

## Exits worth naming

* a failed hash call makes `err` negative, and the switch then falls through to `return 0`:
  success is reported and the key is the old one;
* `getname` returns an error pointer for an empty or unreadable string, and `strcmp` dereferences
  it;
* the allocation of `key_struc` is not checked, and the copy from the user goes through the null
  pointer;
* of the buffers of the ioctl itself only `key_struc` is ever freed, at the exit of a failed copy.
  What the other exits leave allocated is counted in `Wrapfs.AddressSpace.ScratchLedger`.

## What is proved

`wrapfsUnlockedIoctl_key` says what it comes to: whatever happens, the key afterwards is the old
one, none, or an MD5.  So no key in use is ever one that a user has chosen byte by byte.

`SetekeyFaithful` is what the command owes its caller, and `setekeyFaithful_iff` says for which
strings, lengths and answers it pays.  Its second field compares two kernels that differ in the
stale memory only: a key that depends on stale memory cannot be set again by the same call, and
files written under it are lost.  The proof splits on how far the command gets, `ReachesString`,
so that each exit is evaluated once.
-/

namespace Wrapfs

open Ledger

/-- The buffer `getname` returns: the string, its terminator, and after that
whatever the memory held. -/
structure GetnameBuf where
  str : List Byte
  stale : ℕ → Byte

/-- Byte `i` of the buffer. -/
def GetnameBuf.byte (b : GetnameBuf) (i : ℕ) : Byte :=
  if i < b.str.length then b.str.getD i 0
  else if i = b.str.length then 0
  else b.stale i

/-- The first `n` bytes of the buffer. -/
def GetnameBuf.bytes (b : GetnameBuf) (n : ℕ) : List Byte :=
  (List.range n).map b.byte

/-- Which of the hash calls succeed. -/
structure HashCalls where
  alloc : Bool
  init : Bool
  update : Bool
  final : Bool

/-- What `wrapfs_compute_md5` leaves behind: its return value, the digest if it
was written, its scratch trace. -/
structure Md5Result where
  ret : ℤ
  digest : Option Key
  scratch : List (Event Scratch)

/-- `wrapfs_compute_md5(integ_val, key, keySize)`, where `bytes` is what the
scatterlist covers.  Every failure is reported as `-EPERM`; success does not free
the transform. -/
def wrapfsComputeMd5 (md5 : List Byte → Key) (h : HashCalls) (bytes : List Byte) :
    Md5Result :=
  if h.alloc then
    if h.init && h.update && h.final then
      { ret := 0, digest := some (md5 bytes), scratch := [.acquire .hashTfm] }
    else
      { ret := Errno.EPERM.ret, digest := none
        scratch := [.acquire .hashTfm, .release .hashTfm] }
  else { ret := Errno.EPERM.ret, digest := none, scratch := [] }

/-- The answers `wrapfs_unlocked_ioctl` gets.  `getname` is `none` when it returns
an error pointer. -/
structure IoctlCalls where
  integVal : Bool
  accessOk : Bool
  keyStruc : Bool
  copyFromUser : Bool
  keyVal : Bool
  getname : Option GetnameBuf
  hash : HashCalls
  md5Digest : Bool

/-- The command: `WRAPFS_SETEKEY` with the `len` of the user's structure, or any
other one, with what the lower file answers it (`none` if it has no handler). -/
inductive IoctlCmd where
  | setekey (len : ℤ)
  | other (lower : Option ℤ)

/-- What the ioctl leaves behind; `key` is the mount's key afterwards. -/
structure IoctlResult where
  ret : ℤ
  key : Option Key
  scratch : List (Event Scratch)

/-- The string that clears the key: `"0"`. -/
def clearKeyString : List Byte := [48]

/-- `WRAPFS_SETEKEY` from `getname` on. -/
def setekeyString (md5 : List Byte → Key) (c : IoctlCalls) (key : Option Key) (len : ℤ) :
    Except Fault IoctlResult :=
  match c.getname with
  | none => .error .badPointer
  | some buf =>
      if buf.str = clearKeyString then
        .ok { ret := 0, key := none, scratch := [.acquire .nameBuf] }
      else if len < 0 ∧ c.hash.alloc ∧ c.hash.init ∧ c.hash.update then
        -- an update over `(unsigned) len` bytes runs off the end of memory
        .error .badPointer
      else
        let r := wrapfsComputeMd5 md5 c.hash (buf.bytes len.toNat)
        match r.digest with
        | none =>
            -- `err` is negative here, but what follows the test is `return 0`
            .ok { ret := 0, key := key, scratch := .acquire .nameBuf :: r.scratch }
        | some digest =>
            if c.md5Digest then
              .ok { ret := 0, key := some digest
                    scratch := .acquire .nameBuf :: r.scratch ++ [.acquire .md5Digest] }
            else
              .ok { ret := Errno.ENOMEM.ret, key := key
                    scratch := .acquire .nameBuf :: r.scratch }

/-- Can `kmalloc(keyLen + 1)` succeed?  The sum is an `int`, converted to an
unsigned size: a negative one is too large for any allocation. -/
def keyValSizeOk (len : ℤ) : Prop := -1 ≤ len ∧ len < 2 ^ 31 - 1

instance (len : ℤ) : Decidable (keyValSizeOk len) :=
  inferInstanceAs (Decidable (_ ∧ _))

/-- `wrapfs_unlocked_ioctl(file, cmd, arg)`. -/
def wrapfsUnlockedIoctl (md5 : List Byte → Key) (c : IoctlCalls) (key : Option Key)
    (cmd : IoctlCmd) : Except Fault IoctlResult :=
  if c.integVal then
    match cmd with
    | .other lower =>
        .ok { ret := lower.getD Errno.ENOTTY.ret, key := key, scratch := [.acquire .integVal] }
    | .setekey len =>
        if c.accessOk then
          if c.keyStruc then
            if c.copyFromUser then
              if c.keyVal ∧ keyValSizeOk len then
                match setekeyString md5 c key len with
                | .error fault => .error fault
                | .ok r => .ok { r with
                    scratch := [.acquire .integVal, .acquire .keyStruc, .acquire .keyVal] ++
                      r.scratch }
              else
                .ok { ret := Errno.ENOMEM.ret, key := key
                      scratch := [.acquire .integVal, .acquire .keyStruc] }
            else
              .ok { ret := Errno.EFAULT.ret, key := key
                    scratch := [.acquire .integVal, .acquire .keyStruc, .release .keyStruc] }
          else .error .badPointer
        else .ok { ret := Errno.EACCES.ret, key := key, scratch := [.acquire .integVal] }
  else .ok { ret := Errno.ENOMEM.ret, key := key, scratch := [] }

theorem setekeyString_key {md5 : List Byte → Key} {c : IoctlCalls} {key : Option Key}
    {len : ℤ} {r : IoctlResult} (h : setekeyString md5 c key len = .ok r) :
    r.key = key ∨ r.key = none ∨ ∃ bytes, r.key = some (md5 bytes) := by
  unfold setekeyString at h
  cases hname : c.getname with
  | none =>
      rw [hname] at h
      cases h
  | some buf =>
      rw [hname] at h
      by_cases hclear : buf.str = clearKeyString
      · simp only [hclear, if_true] at h
        cases h
        exact Or.inr (Or.inl rfl)
      · simp only [hclear, if_false] at h
        by_cases hlen : len < 0 ∧ c.hash.alloc ∧ c.hash.init ∧ c.hash.update
        · rw [if_pos hlen] at h
          cases h
        · rw [if_neg hlen] at h
          unfold wrapfsComputeMd5 at h
          split_ifs at h <;> cases h <;> simp

/-- **All an ioctl can do to the key**: leave it, clear it, or make it an MD5. -/
theorem wrapfsUnlockedIoctl_key {md5 : List Byte → Key} {c : IoctlCalls}
    {key : Option Key} {cmd : IoctlCmd} {r : IoctlResult}
    (h : wrapfsUnlockedIoctl md5 c key cmd = .ok r) :
    r.key = key ∨ r.key = none ∨ ∃ bytes, r.key = some (md5 bytes) := by
  cases cmd with
  | other lower =>
      left
      simp only [wrapfsUnlockedIoctl] at h
      split_ifs at h <;> cases h <;> rfl
  | setekey len =>
      simp only [wrapfsUnlockedIoctl] at h
      split_ifs at h
      · cases hstr : setekeyString md5 c key len with
        | error fault =>
            rw [hstr] at h
            cases h
        | ok r' =>
            have hkey := setekeyString_key hstr
            rw [hstr] at h
            cases h
            exact hkey
      -- the remaining exits come before the key is touched
      all_goals
        cases h
        exact Or.inl rfl

/-! ## What the command owes -/

/-- The part of the user's string, terminator included, that `len` asks for. -/
def keyString (str : List Byte) (len : ℤ) : List Byte := (str ++ [0]).take len.toNat

/-- As long as `len` stays within the string and its terminator, what is hashed is a
part of the string, and the memory behind it does not matter. -/
theorem GetnameBuf.bytes_of_le {str : List Byte} {n : ℕ} (hn : n ≤ str.length + 1)
    (stale : ℕ → Byte) : (GetnameBuf.mk str stale).bytes n = (str ++ [0]).take n := by
  apply List.ext_getElem
  · simp [GetnameBuf.bytes]
    omega
  · intro i hi _
    have hi' : i < n := by simpa [GetnameBuf.bytes] using hi
    rw [List.getElem_take]
    simp only [GetnameBuf.bytes, List.getElem_map, List.getElem_range, GetnameBuf.byte]
    by_cases hlt : i < str.length
    · rw [if_pos hlt, List.getElem_append_left hlt, List.getD_eq_getElem _ _ hlt]
    · have hend : i = str.length := by omega
      subst hend
      simp

/-- `WRAPFS_SETEKEY` by a user whose structure has the string `str`, copied in front of
the bytes `stale`, and the length `len`. -/
def setekey (md5 : List Byte → Key) (c : IoctlCalls) (str : List Byte) (stale : ℕ → Byte)
    (key : Option Key) (len : ℤ) : Except Fault IoctlResult :=
  wrapfsUnlockedIoctl md5 { c with getname := some ⟨str, stale⟩ } key (.setekey len)

/-- The command returns 0 and stores no key for `"0"`, and else the hash of the part of
the string asked for; or it returns an error and the key is the old one.  The hash
function and the stale memory may be any, so this fixes the bytes that are hashed. -/
structure SetekeyFaithful (c : IoctlCalls) (str : List Byte) (len : ℤ) (key : Option Key) :
    Prop where
  answers : ∀ md5 stale, ∃ r, setekey md5 c str stale key len = .ok r ∧
    (r.ret = 0 ∧
        r.key = (if str = clearKeyString then none else some (md5 (keyString str len))) ∨
      r.ret < 0 ∧ r.key = key)
  /-- Two kernels with different stale memory store the same key. -/
  sameKey : ∀ md5 stale stale' r r', setekey md5 c str stale key len = .ok r →
    setekey md5 c str stale' key len = .ok r' → r.key = r'.key

/-- The hash calls succeed, on bytes of the string only or in vain. -/
def HashesString (c : IoctlCalls) (str : List Byte) (len : ℤ) : Prop :=
  (c.hash.alloc ∧ c.hash.init ∧ c.hash.update ∧ c.hash.final) ∧ 0 ≤ len ∧
    (len ≤ str.length + 1 ∨ c.md5Digest = false)

/-- The command leaves before its first unchecked allocation; or that allocation succeeds
and it leaves before the string is hashed, or hashes the string. -/
def SetekeySafe (c : IoctlCalls) (str : List Byte) (len : ℤ) : Prop :=
  c.integVal = false ∨ c.accessOk = false ∨
    c.keyStruc = true ∧ (c.copyFromUser = false ∨ ¬ (c.keyVal = true ∧ keyValSizeOk len) ∨
      str = clearKeyString ∨ HashesString c str len)

/-- The command gets as far as the string. -/
structure ReachesString (c : IoctlCalls) (len : ℤ) : Prop where
  integVal : c.integVal = true
  accessOk : c.accessOk = true
  keyStruc : c.keyStruc = true
  copyFromUser : c.copyFromUser = true
  keyVal : c.keyVal = true
  size : keyValSizeOk len

section Setekey

variable {md5 : List Byte → Key} {c : IoctlCalls} {str : List Byte} {stale : ℕ → Byte}
  {key : Option Key} {len : ℤ}

/-- A command that does not get as far as the string reports an error and keeps the key,
unless it is the unchecked allocation that failed. -/
theorem setekey_of_early (h : ¬ ReachesString c len)
    (hstruc : c.integVal = false ∨ c.accessOk = false ∨ c.keyStruc = true) :
    ∃ r, setekey md5 c str stale key len = .ok r ∧ r.ret < 0 ∧ r.key = key := by
  simp only [setekey, wrapfsUnlockedIoctl]
  split_ifs with h₁ h₂ h₃ h₄ h₅
  · exact absurd ⟨h₁, h₂, h₃, h₄, h₅.1, h₅.2⟩ h
  · exact ⟨_, rfl, Errno.ret_neg _, rfl⟩
  · exact ⟨_, rfl, Errno.ret_neg _, rfl⟩
  · simp [h₁, h₂, h₃] at hstruc
  · exact ⟨_, rfl, Errno.ret_neg _, rfl⟩
  · exact ⟨_, rfl, Errno.ret_neg _, rfl⟩

/-- A command that gets as far as the string ends as the string's part of it does. -/
theorem setekey_of_reaches (h : ReachesString c len) :
    setekey md5 c str stale key len =
      (setekeyString md5 { c with getname := some ⟨str, stale⟩ } key len).map fun r =>
        { r with
          scratch := [.acquire .integVal, .acquire .keyStruc, .acquire .keyVal] ++ r.scratch } := by
  obtain ⟨h₁, h₂, h₃, h₄, h₅, h₆⟩ := h
  unfold setekey wrapfsUnlockedIoctl
  rw [if_pos h₁]
  dsimp only
  rw [if_pos h₂, if_pos h₃, if_pos h₄, if_pos ⟨h₅, h₆⟩]
  cases setekeyString md5 { c with getname := some ⟨str, stale⟩ } key len <;> rfl

/-- The string `"0"` clears the key. -/
theorem setekey_clear (h : ReachesString c len) :
    ∃ r, setekey md5 c clearKeyString stale key len = .ok r ∧ r.ret = 0 ∧ r.key = none := by
  rw [setekey_of_reaches h]
  exact ⟨_, rfl, rfl, rfl⟩

/-- Any other string, hashed: the key is the hash of `len` bytes from the start of the
string on, unless the buffer for printing it cannot be had. -/
theorem setekey_hashed (h : ReachesString c len) (hstr : str ≠ clearKeyString)
    (hhash : c.hash.alloc ∧ c.hash.init ∧ c.hash.update ∧ c.hash.final) (hlen : 0 ≤ len) :
    ∃ r, setekey md5 c str stale key len = .ok r ∧
      if c.md5Digest then
        r.ret = 0 ∧ r.key = some (md5 ((GetnameBuf.mk str stale).bytes len.toNat))
      else r.ret < 0 ∧ r.key = key := by
  obtain ⟨halloc, hinit, hupdate, hfinal⟩ := hhash
  rw [setekey_of_reaches h]
  simp only [setekeyString, hstr, if_false, not_lt.mpr hlen, false_and, wrapfsComputeMd5, halloc,
    hinit, hupdate, hfinal, Bool.and_self, if_true]
  cases hdigest : c.md5Digest with
  | true => exact ⟨_, rfl, rfl, rfl⟩
  | false => exact ⟨_, rfl, Errno.ret_neg _, rfl⟩

/-- Any other string, when a hash call fails or the length is negative: if the command
returns at all, it reports success and the key is the old one. -/
theorem setekey_not_hashed (h : ReachesString c len) (hstr : str ≠ clearKeyString)
    (hnot : ¬ ((c.hash.alloc ∧ c.hash.init ∧ c.hash.update ∧ c.hash.final) ∧ 0 ≤ len))
    {r : IoctlResult} (hr : setekey md5 c str stale key len = .ok r) :
    r.ret = 0 ∧ r.key = key := by
  rw [setekey_of_reaches h] at hr
  simp only [setekeyString, hstr, if_false] at hr
  by_cases hoff : len < 0 ∧ c.hash.alloc ∧ c.hash.init ∧ c.hash.update
  · rw [if_pos hoff] at hr
    cases hr
  · rw [if_neg hoff] at hr
    have hfail : c.hash.alloc = false ∨ (c.hash.init && c.hash.update && c.hash.final) = false := by
      by_contra hall
      simp only [not_or, Bool.not_eq_false, Bool.and_eq_true] at hall
      obtain ⟨halloc, ⟨hinit, hupdate⟩, hfinal⟩ := hall
      refine hnot ⟨⟨halloc, hinit, hupdate, hfinal⟩, ?_⟩
      by_contra hneg
      exact hoff ⟨not_le.mp hneg, halloc, hinit, hupdate⟩
    have hdigest : (wrapfsComputeMd5 md5 c.hash
        ((GetnameBuf.mk str stale).bytes len.toNat)).digest = none := by
      unfold wrapfsComputeMd5
      rcases hfail with hfail | hfail
      · simp [hfail]
      · cases halloc : c.hash.alloc <;> simp [hfail]
    simp only [hdigest] at hr
    cases hr
    exact ⟨rfl, rfl⟩

/-- Without its unchecked allocation the command does not return. -/
theorem setekey_no_struc (hinteg : c.integVal = true) (haccess : c.accessOk = true)
    (hstruc : c.keyStruc = false) : setekey md5 c str stale key len = .error .badPointer := by
  simp [setekey, wrapfsUnlockedIoctl, hinteg, haccess, hstruc]

theorem setekeySafe_of_reaches (h : ReachesString c len) :
    SetekeySafe c str len ↔ str = clearKeyString ∨ HashesString c str len := by
  simp [SetekeySafe, h.integVal, h.accessOk, h.keyStruc, h.copyFromUser, h.keyVal, h.size]

theorem setekeySafe_of_early (h : ¬ ReachesString c len) :
    SetekeySafe c str len ↔ c.integVal = false ∨ c.accessOk = false ∨ c.keyStruc = true := by
  constructor
  · rintro (hinteg | haccess | ⟨hstruc, -⟩)
    · exact Or.inl hinteg
    · exact Or.inr (Or.inl haccess)
    · exact Or.inr (Or.inr hstruc)
  · intro hstruc
    by_contra hsafe
    apply h
    simp only [SetekeySafe, not_or, Bool.not_eq_false] at hsafe
    obtain ⟨hinteg, haccess, hrest⟩ := hsafe
    have hkeyStruc : c.keyStruc = true := by simpa [hinteg, haccess] using hstruc
    simp only [hkeyStruc, true_and, not_or, Bool.not_eq_false, not_not] at hrest
    obtain ⟨hcopy, ⟨hval, hsize⟩, -⟩ := hrest
    exact ⟨hinteg, haccess, hkeyStruc, hcopy, hval, hsize⟩

/-- A command whose key afterwards is `stored md5`, whatever the stale memory, stores the
same key in any two kernels. -/
theorem SetekeyFaithful.of_key (stored : (List Byte → Key) → Option Key)
    (h : ∀ md5 stale, ∃ r, setekey md5 c str stale key len = .ok r ∧ r.key = stored md5 ∧
      (r.ret = 0 ∧
          r.key = (if str = clearKeyString then none else some (md5 (keyString str len))) ∨
        r.ret < 0 ∧ r.key = key)) :
    SetekeyFaithful c str len key where
  answers md5 stale := by
    obtain ⟨r, hr, -, hend⟩ := h md5 stale
    exact ⟨r, hr, hend⟩
  sameKey md5 stale stale' r r' hr hr' := by
    obtain ⟨_, h₁, hkey, -⟩ := h md5 stale
    obtain ⟨_, h₂, hkey', -⟩ := h md5 stale'
    rw [hr] at h₁
    rw [hr'] at h₂
    cases h₁
    cases h₂
    exact hkey.trans hkey'.symm

/-- A command that answers with an error and keeps the key is faithful. -/
theorem SetekeyFaithful.of_error
    (h : ∀ md5 stale, ∃ r, setekey md5 c str stale key len = .ok r ∧ r.ret < 0 ∧ r.key = key) :
    SetekeyFaithful c str len key := by
  refine SetekeyFaithful.of_key (fun _ => key) fun md5 stale => ?_
  obtain ⟨r, hr, hret, hkey⟩ := h md5 stale
  exact ⟨r, hr, hkey, Or.inr ⟨hret, hkey⟩⟩

/-- A command that stores what the string and length determine is faithful. -/
theorem SetekeyFaithful.of_stored
    (h : ∀ md5 stale, ∃ r, setekey md5 c str stale key len = .ok r ∧ r.ret = 0 ∧
      r.key = (if str = clearKeyString then none else some (md5 (keyString str len)))) :
    SetekeyFaithful c str len key := by
  refine SetekeyFaithful.of_key
    (fun md5 => if str = clearKeyString then none else some (md5 (keyString str len)))
    fun md5 stale => ?_
  obtain ⟨r, hr, hret, hkey⟩ := h md5 stale
  exact ⟨r, hr, hkey, Or.inl ⟨hret, hkey⟩⟩

/-- The string hashed: the key is the hash of the part asked for, or stays. -/
theorem HashesString.faithful (h : HashesString c str len) (hreach : ReachesString c len)
    (hstr : str ≠ clearKeyString) : SetekeyFaithful c str len key := by
  obtain ⟨hhash, hlen, hend⟩ := h
  cases hdigest : c.md5Digest with
  | false =>
      apply SetekeyFaithful.of_error
      intro md5 stale
      simpa [hdigest] using setekey_hashed hreach hstr hhash hlen
  | true =>
      apply SetekeyFaithful.of_stored
      intro md5 stale
      obtain ⟨r, hr, hret, hkey⟩ : ∃ r, setekey md5 c str stale key len = .ok r ∧ r.ret = 0 ∧
          r.key = some (md5 ((GetnameBuf.mk str stale).bytes len.toNat)) := by
        simpa [hdigest] using setekey_hashed hreach hstr hhash hlen
      have hle : len ≤ str.length + 1 := by simpa [hdigest] using hend
      rw [GetnameBuf.bytes_of_le (by omega)] at hkey
      exact ⟨r, hr, hret, by rw [hkey, if_neg hstr, keyString]⟩

/-- A faithful command that gets past the string `"0"` hashes its string: with a hash
function that sends the part asked for to a key `k` that was not stored before, and
everything else to another one, no other course gives `k`. -/
theorem SetekeyFaithful.hashesString (h : SetekeyFaithful c str len key)
    (hreach : ReachesString c len) (hstr : str ≠ clearKeyString) : HashesString c str len := by
  obtain ⟨k, k', hne, hk⟩ : ∃ k k' : Key, k' ≠ k ∧ key ≠ some k := by
    have hdiff : (fun _ => 1 : Key) ≠ zeroKey := fun h =>
      absurd (congrFun h ⟨0, by decide⟩) (by decide)
    by_cases hzero : key = some zeroKey
    · refine ⟨fun _ => 1, zeroKey, hdiff.symm, ?_⟩
      rw [hzero]
      exact fun h => hdiff (Option.some.inj h).symm
    · exact ⟨zeroKey, fun _ => 1, hdiff, hzero⟩
  obtain ⟨r, hr, hend⟩ := h.answers (fun l => if l = keyString str len then k else k') fun _ => 0
  rw [if_neg hstr, if_pos rfl] at hend
  by_cases hhash : (c.hash.alloc ∧ c.hash.init ∧ c.hash.update ∧ c.hash.final) ∧ 0 ≤ len
  · refine ⟨hhash.1, hhash.2, ?_⟩
    by_contra hlong
    simp only [not_or, not_le, Bool.not_eq_false] at hlong
    obtain ⟨hlong, hdigest⟩ := hlong
    obtain ⟨r', hr', hret, hkey⟩ : ∃ r, setekey (fun l => if l = keyString str len then k else k')
        c str (fun _ => 0) key len = .ok r ∧ r.ret = 0 ∧ r.key = some (if
          (GetnameBuf.mk str fun _ => 0).bytes len.toNat = keyString str len then k else k') := by
      simpa [hdigest] using setekey_hashed hreach hstr hhash.1 hhash.2
    rw [hr] at hr'
    cases hr'
    have hother : (GetnameBuf.mk str fun _ => 0).bytes len.toNat ≠ keyString str len := by
      intro heq
      have hlength := congrArg List.length heq
      simp only [GetnameBuf.bytes, keyString, List.length_map, List.length_range,
        List.length_take, List.length_append, List.length_singleton] at hlength
      omega
    rw [if_neg hother] at hkey
    rcases hend with ⟨-, hend⟩ | ⟨hend, -⟩
    · exact hne (Option.some.inj (hkey.symm.trans hend))
    · omega
  · obtain ⟨hret, hkey⟩ := setekey_not_hashed hreach hstr hhash hr
    rcases hend with ⟨-, hend⟩ | ⟨hend, -⟩
    · exact absurd (hkey.symm.trans hend) hk
    · omega

end Setekey

/-- **When the command pays.**  `WRAPFS_SETEKEY` is faithful to the string and length it
is given exactly when its one unchecked allocation is not the one that fails, and, if it
gets as far as hashing, every hash call succeeds on a length between zero and the string
with its terminator; a longer length does no harm only if nothing is stored. -/
theorem setekeyFaithful_iff (c : IoctlCalls) (str : List Byte) (len : ℤ) (key : Option Key) :
    SetekeyFaithful c str len key ↔ SetekeySafe c str len := by
  by_cases hreach : ReachesString c len
  · rw [setekeySafe_of_reaches hreach]
    by_cases hstr : str = clearKeyString
    · refine iff_of_true (SetekeyFaithful.of_stored fun md5 stale => ?_) (Or.inl hstr)
      rw [hstr, if_pos rfl]
      exact setekey_clear hreach
    · constructor
      · intro h
        exact Or.inr (h.hashesString hreach hstr)
      · intro h
        exact (h.resolve_left hstr).faithful hreach hstr
  · rw [setekeySafe_of_early hreach]
    constructor
    · intro h
      by_contra hnot
      simp only [not_or, Bool.not_eq_false, Bool.not_eq_true] at hnot
      obtain ⟨hinteg, haccess, hstruc⟩ := hnot
      obtain ⟨r, hr, -⟩ := h.answers (fun _ => zeroKey) fun _ => 0
      rw [setekey_no_struc hinteg haccess hstruc] at hr
      cases hr
    · intro h
      exact SetekeyFaithful.of_error fun md5 stale => setekey_of_early hreach h

/-- Every call of the ioctl succeeds but, if `hash` is false, the allocation of the hash
transform. -/
def keyCalls (hash : Bool) : IoctlCalls :=
  ⟨true, true, true, true, true, none, ⟨hash, true, true, true⟩, true⟩

/-- With the string `"a"` and no key set: a failed hash transform is reported as success
with no key stored, and a length of three hashes a byte behind the string. -/
theorem setekey_unfaithful :
    ¬ SetekeyFaithful (keyCalls false) [97] 1 none ∧
      ¬ SetekeyFaithful (keyCalls true) [97] 3 none := by
  constructor
  · intro h
    obtain ⟨r, hr, hend⟩ := h.answers (fun _ => zeroKey) fun _ => 0
    cases hr
    rcases hend with ⟨-, hkey⟩ | ⟨hret, -⟩
    · exact absurd hkey (by decide)
    · exact absurd hret (by decide)
  · intro h
    have hsame := h.sameKey (fun l => fun _ => l.getD 2 0) (fun _ => 0) (fun _ => 1) _ _ rfl rfl
    exact absurd (congrFun (Option.some.inj hsame) ⟨0, by decide⟩) (by decide)

end Wrapfs
