import Mathlib
import Wrapfs.Kernel
import Wrapfs.Foundations.CounterMode
import Wrapfs.Foundations.Ledger

/-!
# Page encryption (`crypto.c`)

`wrapfs_encrypt_page_new` and `wrapfs_decrypt_page_new` are one routine with the
roles of its two pages exchanged: allocate a `ctr(aes)` transform, set the key,
run the cipher over one page.  `cryptPage` is that routine; the two source
functions are its instances.

The block cipher is a parameter `E : BlockCipher`.  What the code relies on is
counter mode, which `CounterMode.cryptBlocks` computes block by block from the
transform's IV, and that a transform fresh from `crypto_alloc_blkcipher` has an
all-zero IV.

## Error exits

Each of the three crypto calls can fail (`CipherCalls`).  Two exits are worth
naming, because callers rely on the return value alone:

* a failed *allocation* leaves `ret` at its initial `0`, so the routine reports
  success and has not touched the destination page;
* a failed `setkey` or cipher call is returned as the error it is (`ret` is
  `unsigned`, but it is converted back to `int` on return).

No exit frees the transform; `PageCrypt.scratch` records that.

## Keystream reuse

Nothing about the page — not its inode, not its index — enters the cipher, and
every call starts a fresh transform at counter zero.  `encryptRun_same_counters`
is what follows for a whole run: any two pages encrypted under one key are
XORed with the *same* keystream, position by position.

## The round trip

The two routines pass their two scatterlists in opposite roles, so they are also
stated over pages in memory, where a wrong role would show as a page changed that
should not be.  `decrypt_encrypt_agrees` holds for every cut of the ciphertext,
inside a cipher block too, which is what storing a partial last page rests on.
-/

namespace Wrapfs

open CounterMode Ledger

/-- `MD5_SIGNATURE_SIZE`, the length of the key in bytes. -/
def md5SignatureSize : ℕ := 16

/-- The key stored in the super block: `u8 *keyVal`. -/
abbrev Key : Type := Fin md5SignatureSize → Byte

/-- `AES_BLOCK_SIZE`. -/
def blockSize : ℕ := 16

instance : NeZero blockSize := ⟨by decide⟩

/-- The block cipher under `ctr(...)`: for each key, a function from the 128-bit
counter block to one block of bytes. -/
abbrev BlockCipher : Type := Key → BlockFn 128 blockSize

/-- The number of cipher blocks in a page. -/
def blocksPerPage : ℕ := pageCacheSize / blockSize

/-- The scratch resources the page operations and the ioctl acquire. -/
inductive Scratch where
  | dstPage
  | mapPage
  | mapDst
  | cipherTfm
  | hashTfm
  | integVal
  | keyStruc
  | keyVal
  | nameBuf
  | md5Digest
  deriving DecidableEq

/-- A transform: its IV, which the cipher advances as it runs. -/
structure Blkcipher where
  iv : BitVec 128

/-- A transform whose key has been set; only such a transform can be run. -/
structure KeyedBlkcipher extends Blkcipher where
  key : Key

/-- What the crypto calls of one page encryption or decryption answer: `none` is
success.  A cipher call that fails may leave anything in its destination. -/
structure CipherCalls where
  alloc : Option Errno
  setkey : Option Errno
  crypt : Option (Errno × Page)

/-- All three calls succeed. -/
def CipherCalls.succeed : CipherCalls := ⟨none, none, none⟩

/-- What one call of the page routine leaves behind: its return value, the page
it wrote to, the counters it spent, the transform it allocated, and its trace of
scratch resources. -/
structure PageCrypt where
  ret : ℤ
  dst : Page
  used : List (BitVec 128)
  tfm : Option Blkcipher
  scratch : List (Event Scratch)

/-- `crypto_alloc_blkcipher("ctr(aes)", 0, 0)`: the transform is zeroed. -/
def cryptoAllocBlkcipher (c : CipherCalls) : Except Errno Blkcipher :=
  match c.alloc with
  | some e => .error e
  | none => .ok ⟨0⟩

/-- `crypto_blkcipher_setkey`. -/
def cryptoBlkcipherSetkey (c : CipherCalls) (tfm : Blkcipher) (key : Key) :
    Except Errno KeyedBlkcipher :=
  match c.setkey with
  | some e => .error e
  | none => .ok { tfm with key := key }

/-- `crypto_blkcipher_encrypt` and `crypto_blkcipher_decrypt` over one page; in
counter mode they are the same walk. -/
def cryptoBlkcipherCrypt (E : BlockCipher) (c : CipherCalls) (tfm : KeyedBlkcipher)
    (dst src : Page) : Except (Errno × Page) (Stream 128 pageCacheSize) :=
  match c.crypt with
  | some failure => .error failure
  | none => .ok (cryptBlocks (E tfm.key) src blocksPerPage ⟨dst, tfm.iv, []⟩)

/-- The body shared by the two page routines of `crypto.c`. -/
def cryptPage (E : BlockCipher) (c : CipherCalls) (dst src : Page) (key : Key) :
    PageCrypt :=
  match cryptoAllocBlkcipher c with
  | .error _ =>
      -- `goto out` with `ret` still 0: the failure is not reported.
      { ret := 0, dst := dst, used := [], tfm := none, scratch := [] }
  | .ok tfm =>
      match cryptoBlkcipherSetkey c tfm key with
      | .error e =>
          { ret := e.ret, dst := dst, used := [], tfm := some tfm
            scratch := [.acquire .cipherTfm] }
      | .ok keyed =>
          match cryptoBlkcipherCrypt E c keyed dst src with
          | .error (e, junk) =>
              { ret := e.ret, dst := junk, used := [], tfm := some tfm
                scratch := [.acquire .cipherTfm] }
          | .ok s =>
              { ret := 0, dst := s.out, used := s.used, tfm := some ⟨s.ctr⟩
                scratch := [.acquire .cipherTfm] }

/-- `wrapfs_encrypt_page_new(page, dst_page, encKey)`: from `page` into
`dst_page`. -/
def wrapfsEncryptPageNew (E : BlockCipher) (c : CipherCalls) (page dstPage : Page)
    (encKey : Key) : PageCrypt :=
  cryptPage E c dstPage page encKey

/-- `wrapfs_decrypt_page_new(page, dst_page, key)`: from `dst_page` into
`page`. -/
def wrapfsDecryptPageNew (E : BlockCipher) (c : CipherCalls) (page dstPage : Page)
    (key : Key) : PageCrypt :=
  cryptPage E c page dstPage key

/-! ## The cipher, byte by byte -/

/-- The byte the cipher XORs onto in-page offset `i` under key `k`. -/
def pageKeystream (E : BlockCipher) (k : Key) (i : ℕ) : Byte :=
  keystream (E k) 0 i

/-- Encryption, and equally decryption, of one byte at in-page offset `i`. -/
def cipherByte (E : BlockCipher) (k : Key) (i : ℕ) (x : Byte) : Byte :=
  x ^^^ pageKeystream E k i

@[simp] theorem cipherByte_cipherByte (E : BlockCipher) (k : Key) (i : ℕ) (x : Byte) :
    cipherByte E k i (cipherByte E k i x) = x :=
  xor_keystream_cancel x _

/-- Encryption, and equally decryption, of a whole page. -/
def cipherPage (E : BlockCipher) (k : Key) (p : Page) : Page :=
  fun i => cipherByte E k i.val (p i)

theorem block_lt (i : Fin pageCacheSize) : i.val / blockSize < blocksPerPage := by
  have hi : i.val < 4096 := i.isLt
  show i.val / 16 < 4096 / 16
  omega

/-- **The page routine when its calls succeed**: it reports success, applies the
keystream from counter zero to the whole page, and spends the counters of one
page. -/
theorem cryptPage_succeed (E : BlockCipher) (dst src : Page) (key : Key) :
    cryptPage E .succeed dst src key =
      { ret := 0, dst := cipherPage E key src, used := counters 0 blocksPerPage
        tfm := some ⟨0 + BitVec.ofNat 128 blocksPerPage⟩
        scratch := [.acquire .cipherTfm] } := by
  have hout : (cryptBlocks (E key) src blocksPerPage ⟨dst, 0, []⟩).out =
      cipherPage E key src := by
    funext i
    rw [out_cryptBlocks, if_pos (block_lt i)]
    rfl
  have hused := used_cryptBlocks (E key) src blocksPerPage ⟨dst, 0, []⟩
  have hctr := ctr_cryptBlocks (E key) src blocksPerPage ⟨dst, 0, []⟩
  simp only [cryptPage, cryptoAllocBlkcipher, CipherCalls.succeed,
    cryptoBlkcipherSetkey, cryptoBlkcipherCrypt, hout, hused, hctr,
    List.nil_append]

@[simp] theorem wrapfsEncryptPageNew_dst (E : BlockCipher) (page dstPage : Page)
    (key : Key) :
    (wrapfsEncryptPageNew E .succeed page dstPage key).dst = cipherPage E key page := by
  rw [wrapfsEncryptPageNew, cryptPage_succeed]

@[simp] theorem wrapfsDecryptPageNew_dst (E : BlockCipher) (page dstPage : Page)
    (key : Key) :
    (wrapfsDecryptPageNew E .succeed page dstPage key).dst = cipherPage E key dstPage := by
  rw [wrapfsDecryptPageNew, cryptPage_succeed]

@[simp] theorem wrapfsDecryptPageNew_ret (E : BlockCipher) (page dstPage : Page)
    (key : Key) :
    (wrapfsDecryptPageNew E .succeed page dstPage key).ret = 0 := by
  rw [wrapfsDecryptPageNew, cryptPage_succeed]

/-- The cipher whose keystream is the byte `b` throughout, for runs on concrete
inputs. -/
def constCipher (b : Byte) : BlockCipher := fun _ _ _ => b

/-- A cipher whose keystream differs from byte to byte of a block and is nowhere zero. -/
def offsetCipher : BlockCipher := fun _ _ x => UInt8.ofNat (x.val + 1)

/-- The key of zeros. -/
def zeroKey : Key := fun _ => 0

/-! ## Keystream reuse over a run -/

/-- Cipher block `j` of a page. -/
def pageBlock (p : Page) (j : Fin blocksPerPage) (x : Fin blockSize) : Byte :=
  p ⟨blockSize * j.val + x.val, by
    have hj : j.val < 256 := j.isLt
    have hx : x.val < 16 := x.isLt
    show 16 * j.val + x.val < 4096
    omega⟩

theorem pageBlock_cipherPage (E : BlockCipher) (k : Key) (p : Page)
    (j : Fin blocksPerPage) (x : Fin blockSize) :
    pageBlock (cipherPage E k p) j x =
      pageBlock p j x ^^^ keystream (E k) 0 (blockSize * j.val + x.val) := rfl

/-- One page handed to `wrapfs_encrypt_page_new`: whose page it is, the key, its
plaintext, what the destination page held, and what the crypto calls answer. -/
structure EncryptCall where
  ino : ℕ
  index : ℕ
  key : Key
  page : Page
  stale : Page
  calls : CipherCalls

/-- A call together with what it left behind. -/
structure EncryptRecord where
  call : EncryptCall
  result : PageCrypt

/-- The transforms allocated so far, each with the IV it was left at, and the
calls made so far. -/
structure CryptoState where
  pool : List Blkcipher
  log : List EncryptRecord

def encryptStep (E : BlockCipher) (s : CryptoState) (c : EncryptCall) : CryptoState :=
  let r := wrapfsEncryptPageNew E c.calls c.page c.stale c.key
  { pool := s.pool ++ r.tfm.toList, log := s.log ++ [⟨c, r⟩] }

/-- A run of page encryptions, for any pages of any inodes under any keys. -/
def encryptRun (E : BlockCipher) (cs : List EncryptCall) : CryptoState :=
  cs.foldl (encryptStep E) ⟨[], []⟩

/-- Every entry of the log was computed by the routine from its own call: no
state is carried from one call to the next. -/
theorem encryptRun_log (E : BlockCipher) (cs : List EncryptCall) :
    (encryptRun E cs).log =
      cs.map fun c => ⟨c, wrapfsEncryptPageNew E c.calls c.page c.stale c.key⟩ := by
  induction cs using List.reverseRecOn with
  | nil => rfl
  | append_singleton cs c ih =>
      rw [List.map_append, ← ih, encryptRun, List.foldl_append]
      rfl

theorem mem_encryptRun_log {E : BlockCipher} {cs : List EncryptCall} {r : EncryptRecord}
    (h : r ∈ (encryptRun E cs).log) :
    r.result =
      wrapfsEncryptPageNew E r.call.calls r.call.page r.call.stale r.call.key := by
  rw [encryptRun_log] at h
  obtain ⟨c, -, rfl⟩ := List.mem_map.mp h
  rfl

/-- A page was really encrypted — some counter was spent on it — only when all
three crypto calls succeeded. -/
theorem eq_succeed_of_used_ne_nil (E : BlockCipher) (c : CipherCalls)
    (dst src : Page) (key : Key) (h : (cryptPage E c dst src key).used ≠ []) :
    c = .succeed := by
  obtain ⟨alloc, setkey, crypt⟩ := c
  cases alloc with
  | some e => exact absurd rfl h
  | none =>
      cases setkey with
      | some e => exact absurd rfl h
      | none =>
          cases crypt with
          | some f => exact absurd rfl h
          | none => rfl

/-- What a page that was encrypted in a run looks like: its counters are those
of a stream started at zero, and its ciphertext is the page under the keystream
of its key. -/
theorem encrypted_of_mem_log {E : BlockCipher} {cs : List EncryptCall}
    {r : EncryptRecord} (h : r ∈ (encryptRun E cs).log) (hused : r.result.used ≠ []) :
    r.result.used = counters 0 blocksPerPage ∧
      r.result.dst = cipherPage E r.call.key r.call.page := by
  have hres := mem_encryptRun_log h
  rw [wrapfsEncryptPageNew] at hres
  have hcalls : r.call.calls = .succeed := by
    refine eq_succeed_of_used_ne_nil E _ r.call.stale r.call.page r.call.key ?_
    rwa [← hres]
  rw [hcalls, cryptPage_succeed] at hres
  rw [hres]
  exact ⟨rfl, rfl⟩

/-- The requirement that page identity separate the counters: over any run, two
encrypted pages of different `(inode, index)` share no counter block. -/
def KeystreamNeverReused (E : BlockCipher) : Prop :=
  ∀ (cs : List EncryptCall) (r₁ r₂ : EncryptRecord),
    r₁ ∈ (encryptRun E cs).log → r₂ ∈ (encryptRun E cs).log →
    r₁.call.key = r₂.call.key →
    (r₁.call.ino, r₁.call.index) ≠ (r₂.call.ino, r₂.call.index) →
    ∀ c ∈ r₁.result.used, c ∉ r₂.result.used

/-- **Every page uses the same counters.**  For any two pages encrypted under one
key in a run, in any order: both spend exactly the counters of one stream from
zero, so the XOR of the two ciphertexts is the XOR of the two plaintexts.  What
does separate keystream is the position *inside* the page: the counters of a
page are pairwise distinct, and equal plaintext blocks at different positions
never give equal ciphertext blocks. -/
theorem encryptRun_same_counters (E : BlockCipher) (cs : List EncryptCall)
    {r₁ r₂ : EncryptRecord} (h₁ : r₁ ∈ (encryptRun E cs).log)
    (h₂ : r₂ ∈ (encryptRun E cs).log) (hkey : r₁.call.key = r₂.call.key)
    (hE : Function.Injective (E r₁.call.key))
    (hused₁ : r₁.result.used ≠ []) (hused₂ : r₂.result.used ≠ []) :
    r₁.result.used = counters 0 blocksPerPage ∧ r₂.result.used = r₁.result.used ∧
      r₁.result.used.Nodup ∧
      (∀ i, r₁.result.dst i ^^^ r₂.result.dst i = r₁.call.page i ^^^ r₂.call.page i) ∧
      (∀ j, pageBlock r₁.call.page j = pageBlock r₂.call.page j →
        pageBlock r₁.result.dst j = pageBlock r₂.result.dst j) ∧
      ∀ j j' : Fin blocksPerPage, j ≠ j' →
        pageBlock r₁.call.page j = pageBlock r₂.call.page j' →
        pageBlock r₁.result.dst j ≠ pageBlock r₂.result.dst j' := by
  obtain ⟨hu₁, hd₁⟩ := encrypted_of_mem_log h₁ hused₁
  obtain ⟨hu₂, hd₂⟩ := encrypted_of_mem_log h₂ hused₂
  rw [← hkey] at hd₂
  refine ⟨hu₁, hu₂.trans hu₁.symm, ?_, ?_, ?_, ?_⟩
  · rw [hu₁]
    exact counters_nodup 0 (by decide)
  · intro i
    rw [hd₁, hd₂, cipherPage, cipherPage, cipherByte, cipherByte]
    generalize pageKeystream E r₁.call.key i.val = k
    rw [UInt8.xor_assoc, UInt8.xor_comm k, UInt8.xor_assoc, UInt8.xor_self,
      UInt8.xor_zero]
  · intro j hblock
    funext x
    rw [hd₁, hd₂, pageBlock_cipherPage, pageBlock_cipherPage, congrFun hblock x]
  · intro j j' hne hblock heq
    have hlt : ∀ m : Fin blocksPerPage, m.val < 2 ^ 128 := fun m =>
      lt_of_lt_of_le m.isLt (by decide)
    obtain ⟨x, hx⟩ := keystream_block_ne hE 0 (hlt j) (hlt j')
      (fun h => hne (Fin.ext h))
    refine hx ?_
    have hbyte := congrFun heq x
    rw [hd₁, hd₂, pageBlock_cipherPage, pageBlock_cipherPage, congrFun hblock x] at hbyte
    exact (UInt8.xor_right_inj _).mp hbyte

/-- An injective block function for concrete runs: the counter's own bytes. -/
def counterBytes : BlockCipher :=
  fun _ c x => UInt8.ofBitVec (c.extractLsb' (8 * x.val) 8)

theorem counterBytes_injective (k : Key) : Function.Injective (counterBytes k) := by
  intro c d h
  refine BitVec.eq_of_getLsbD_eq fun i hi => ?_
  -- bit `i` is bit `i % 8` of byte `i / 8`
  have hbyte := congrFun h ⟨i / 8, by show i / 8 < 16; omega⟩
  have hbit := congrArg (fun y : UInt8 => y.toBitVec.getLsbD (i % 8)) hbyte
  have hmod : i % 8 < 8 := Nat.mod_lt i (by decide)
  simpa [counterBytes, BitVec.getLsbD_extractLsb', hmod, Nat.div_add_mod] using hbit

/-- A page of zeros written by the first page of inode 1. -/
def zeroPageCall (index : ℕ) : EncryptCall where
  ino := 1
  index := index
  key := zeroKey
  page := fun _ => 0
  stale := fun _ => 0
  calls := .succeed

/-- Two pages of one file, encrypted one after the other under one key, both
spend counter zero. -/
theorem keystream_reused_by_two_pages :
    (∀ k, Function.Injective (counterBytes k)) ∧ ¬ KeystreamNeverReused counterBytes := by
  refine ⟨counterBytes_injective, fun hnever => ?_⟩
  have hlog := encryptRun_log counterBytes [zeroPageCall 0, zeroPageCall 1]
  have hzero : ∀ n, (0 : BitVec 128) ∈ (wrapfsEncryptPageNew counterBytes .succeed
      (zeroPageCall n).page (zeroPageCall n).stale (zeroPageCall n).key).used := by
    intro n
    rw [wrapfsEncryptPageNew, cryptPage_succeed]
    exact List.mem_map.mpr ⟨0, List.mem_range.mpr (by decide), by simp⟩
  refine hnever [zeroPageCall 0, zeroPageCall 1] ⟨zeroPageCall 0, _⟩ ⟨zeroPageCall 1, _⟩
    (by rw [hlog]; exact List.mem_cons_self)
    (by rw [hlog]; exact List.mem_cons_of_mem _ List.mem_cons_self)
    rfl (by simp [zeroPageCall]) 0 (hzero 0) (hzero 1)

/-- `encryptRun_same_counters` at that run. -/
theorem encryptRun_same_counters_two_pages :
    ((encryptRun counterBytes [zeroPageCall 0, zeroPageCall 1]).log.map
      fun r => r.result.used) =
        [counters 0 blocksPerPage, counters 0 blocksPerPage] ∧
      ∀ r₁ ∈ (encryptRun counterBytes [zeroPageCall 0, zeroPageCall 1]).log,
        ∀ r₂ ∈ (encryptRun counterBytes [zeroPageCall 0, zeroPageCall 1]).log,
          r₂.result.used = r₁.result.used := by
  have hused : ∀ n, (wrapfsEncryptPageNew counterBytes (zeroPageCall n).calls
      (zeroPageCall n).page (zeroPageCall n).stale (zeroPageCall n).key).used =
        counters 0 blocksPerPage := fun n => by
    rw [wrapfsEncryptPageNew, zeroPageCall, cryptPage_succeed]
  have hne : counters (0 : BitVec 128) blocksPerPage ≠ [] := by
    simp [counters, blocksPerPage, pageCacheSize, blockSize]
  have hcall : ∀ r ∈ (encryptRun counterBytes [zeroPageCall 0, zeroPageCall 1]).log,
      r.result.used ≠ [] ∧ r.call.key = zeroKey := by
    rw [encryptRun_log]
    intro r hr
    obtain ⟨c, hc, rfl⟩ := List.mem_map.mp hr
    rcases List.mem_pair.mp hc with rfl | rfl
    · exact ⟨by rw [hused]; exact hne, rfl⟩
    · exact ⟨by rw [hused]; exact hne, rfl⟩
  refine ⟨by simp [encryptRun_log, hused], fun r₁ h₁ r₂ h₂ => ?_⟩
  exact (encryptRun_same_counters counterBytes _ h₁ h₂
    ((hcall r₁ h₁).2.trans (hcall r₂ h₂).2.symm) (counterBytes_injective _)
    (hcall r₁ h₁).1 (hcall r₂ h₂).1).2.1

/-! ## The two routines on pages in memory -/

section Memory

variable {α : Type*} [DecidableEq α]

/-- A scatterlist of one entry that covers a whole page:
`sg_set_page(&sg, page, PAGE_SIZE, 0)`. -/
structure Scatterlist (α : Type*) where
  page : α

/-- `crypto_blkcipher_encrypt(&desc, dst, src, PAGE_SIZE)`, and equally
`crypto_blkcipher_decrypt`, over the pages of memory `mem`. -/
def cryptoBlkcipherCryptAt (E : BlockCipher) (c : CipherCalls) (tfm : KeyedBlkcipher)
    (dst src : Scatterlist α) (mem : α → Page) : ℤ × (α → Page) :=
  match c.crypt with
  | some (e, junk) => (e.ret, Function.update mem dst.page junk)
  | none => (0, (walkBlocks (E tfm.key) dst.page src.page blocksPerPage ⟨mem, tfm.iv⟩).mem)

/-- `cryptPage` on pages in memory. -/
def cryptPageAt (E : BlockCipher) (c : CipherCalls) (dst src : Scatterlist α) (key : Key)
    (mem : α → Page) : ℤ × (α → Page) :=
  match cryptoAllocBlkcipher c with
  | .error _ => (0, mem)
  | .ok tfm =>
      match cryptoBlkcipherSetkey c tfm key with
      | .error e => (e.ret, mem)
      | .ok keyed => cryptoBlkcipherCryptAt E c keyed dst src mem

/-- `wrapfs_encrypt_page_new(page, dst_page, encKey)` for pages in memory. -/
def wrapfsEncryptPageNewAt (E : BlockCipher) (c : CipherCalls) (page dstPage : α)
    (encKey : Key) (mem : α → Page) : ℤ × (α → Page) :=
  let src : Scatterlist α := ⟨page⟩
  let dst : Scatterlist α := ⟨dstPage⟩
  cryptPageAt E c dst src encKey mem

/-- `wrapfs_decrypt_page_new(page, dst_page, key)` for pages in memory. -/
def wrapfsDecryptPageNewAt (E : BlockCipher) (c : CipherCalls) (page dstPage : α)
    (key : Key) (mem : α → Page) : ℤ × (α → Page) :=
  let src : Scatterlist α := ⟨page⟩
  let dst : Scatterlist α := ⟨dstPage⟩
  -- the scatterlist named `src` is passed as the destination
  cryptPageAt E c src dst key mem

/-- In memory the shared body does what `cryptPage` says to the destination page and
leaves every other page alone, however its calls end. -/
theorem cryptPageAt_eq (E : BlockCipher) (c : CipherCalls) {dst src : Scatterlist α}
    (hne : src.page ≠ dst.page) (key : Key) (mem : α → Page) :
    cryptPageAt E c dst src key mem =
      ((cryptPage E c (mem dst.page) (mem src.page) key).ret,
        Function.update mem dst.page (cryptPage E c (mem dst.page) (mem src.page) key).dst) := by
  obtain ⟨alloc, setkey, crypt⟩ := c
  cases alloc with
  | some e =>
      simp only [cryptPageAt, cryptPage, cryptoAllocBlkcipher, Function.update_eq_self]
  | none =>
      cases setkey with
      | some e =>
          simp only [cryptPageAt, cryptPage, cryptoAllocBlkcipher, cryptoBlkcipherSetkey,
            Function.update_eq_self]
      | none =>
          cases crypt with
          | some failure => rfl
          | none =>
              simp only [cryptPageAt, cryptPage, cryptoAllocBlkcipher, cryptoBlkcipherSetkey,
                cryptoBlkcipherCryptAt, cryptoBlkcipherCrypt, walkBlocks_eq _ hne]

theorem cryptPageAt_succeed (E : BlockCipher) {dst src : Scatterlist α}
    (hne : src.page ≠ dst.page) (key : Key) (mem : α → Page) :
    cryptPageAt E .succeed dst src key mem =
      (0, Function.update mem dst.page (cipherPage E key (mem src.page))) := by
  rw [cryptPageAt_eq E .succeed hne, cryptPage_succeed]

end Memory

/-! ## The round trip -/

/-- The 128-bit counter as the block cipher gets it: sixteen bytes, the most significant
first. -/
def counterBlock (c : BitVec 128) : Fin blockSize → Byte :=
  fun x => UInt8.ofBitVec (c.extractLsb' (8 * (blockSize - 1 - x.val)) 8)

/-- `ctr(...)` over a function on blocks of bytes. -/
def ctrOf (E : Key → (Fin blockSize → Byte) → Fin blockSize → Byte) : BlockCipher :=
  fun k c => E k (counterBlock c)

/-- **Decryption undoes encryption, as far as the ciphertext goes.**  Encrypt page
`p` into `d`, take any page `e` of any memory that agrees with the result on its
first `n` bytes, and decrypt it into `q`: `q` then agrees with the plaintext on its
first `n` bytes, whatever it held.  The two calls change no page but their
destination, and byte `i` of what they write depends on no byte of their source but
byte `i`. -/
theorem decrypt_encrypt_agrees {α : Type*} [DecidableEq α]
    (E : Key → (Fin blockSize → Byte) → Fin blockSize → Byte) (key : Key) {p d q e : α}
    (hpd : p ≠ d) (hqd : q ≠ e) :
    (∀ (mem mem' : α → Page) (n : ℕ), n ≤ pageCacheSize →
      (∀ i : Fin pageCacheSize, i.val < n → mem' e i =
        (wrapfsEncryptPageNewAt (ctrOf E) .succeed p d key mem).2 d i) →
      (∀ i : Fin pageCacheSize, i.val < n →
        (wrapfsDecryptPageNewAt (ctrOf E) .succeed q e key mem').2 q i = mem p i) ∧
      (n = pageCacheSize →
        (wrapfsDecryptPageNewAt (ctrOf E) .succeed q e key mem').2 q = mem p)) ∧
    (∀ (mem : α → Page) (x : α), x ≠ d →
      (wrapfsEncryptPageNewAt (ctrOf E) .succeed p d key mem).2 x = mem x) ∧
    (∀ (mem : α → Page) (x : α), x ≠ q →
      (wrapfsDecryptPageNewAt (ctrOf E) .succeed q e key mem).2 x = mem x) ∧
    (∀ (mem mem' : α → Page) (i : Fin pageCacheSize), mem p i = mem' p i →
      (wrapfsEncryptPageNewAt (ctrOf E) .succeed p d key mem).2 d i =
        (wrapfsEncryptPageNewAt (ctrOf E) .succeed p d key mem').2 d i) ∧
    ∀ (mem mem' : α → Page) (i : Fin pageCacheSize), mem e i = mem' e i →
      (wrapfsDecryptPageNewAt (ctrOf E) .succeed q e key mem).2 q i =
        (wrapfsDecryptPageNewAt (ctrOf E) .succeed q e key mem').2 q i := by
  have henc : ∀ mem : α → Page, (wrapfsEncryptPageNewAt (ctrOf E) .succeed p d key mem).2 =
      Function.update mem d (cipherPage (ctrOf E) key (mem p)) := fun mem =>
    congrArg Prod.snd (cryptPageAt_succeed (ctrOf E) hpd key mem)
  have hdec : ∀ mem : α → Page, (wrapfsDecryptPageNewAt (ctrOf E) .succeed q e key mem).2 =
      Function.update mem q (cipherPage (ctrOf E) key (mem e)) := fun mem =>
    congrArg Prod.snd (cryptPageAt_succeed (ctrOf E) hqd.symm key mem)
  refine ⟨fun mem mem' n _ hagree => ?_, ?_, ?_, ?_, ?_⟩
  · have hbyte : ∀ i : Fin pageCacheSize, i.val < n →
        (wrapfsDecryptPageNewAt (ctrOf E) .succeed q e key mem').2 q i = mem p i := by
      intro i hi
      have hcipher := hagree i hi
      rw [henc, Function.update_self] at hcipher
      rw [hdec, Function.update_self, cipherPage, hcipher, cipherPage]
      exact cipherByte_cipherByte (ctrOf E) key i.val (mem p i)
    refine ⟨hbyte, fun hn => ?_⟩
    funext i
    apply hbyte
    rw [hn]
    exact i.isLt
  · intro mem x hx
    rw [henc, Function.update_of_ne hx]
  · intro mem x hx
    rw [hdec, Function.update_of_ne hx]
  · intro mem mem' i hi
    rw [henc, henc, Function.update_self, Function.update_self, cipherPage, cipherPage, hi]
  · intro mem mem' i hi
    rw [hdec, hdec, Function.update_self, Function.update_self, cipherPage, cipherPage, hi]

/-- `decrypt_encrypt_agrees` for a page of sevens in page 0, encrypted into page 1: one
byte of it is copied to page 2 and decrypted into page 3. -/
theorem decrypt_encrypt_agrees_one_byte :
    (wrapfsDecryptPageNewAt (ctrOf fun _ block => block) .succeed 3 2 zeroKey
      (fun _ _ => (wrapfsEncryptPageNewAt (ctrOf fun _ block => block) .succeed (0 : ℕ) 1 zeroKey
        (fun _ _ => 7)).2 1 0)).2 3 0 = 7 := by
  refine ((decrypt_encrypt_agrees (fun _ block => block) zeroKey (p := (0 : ℕ)) (d := 1)
    (q := 3) (e := 2) (by decide) (by decide)).1 (fun _ _ => 7) _ 1 (by decide) ?_).1 0 (by decide)
  intro i hi
  have hzero : i = 0 := Fin.ext (Nat.lt_one_iff.mp hi)
  rw [hzero]

end Wrapfs
