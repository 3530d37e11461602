import Mathlib.Data.BitVec
import Mathlib.Data.List.Nodup
import Mathlib.Data.List.Range
import Mathlib.Tactic.Common

/-!
# Counter mode over a finite buffer

A counter-mode driver walks a buffer one block at a time: block `j` is XORed with `F` of the
current counter, and the counter is stepped.  `cryptBlocks` is that loop, with the list of
counters it spent as a third component, over an arbitrary counter width `w`, block length `b`,
block function `F` and buffer length `n`.

The loop is *closed* by `out_cryptBlocks`: byte `i` of the output is byte `i` of the input XORed
with `keystream F c i`, a byte that depends on the starting counter and the position only.
Everything a client needs follows from that.  Running the loop twice from the same counter is the
identity (`xor_keystream_cancel`), the output is local in the input, so that a ciphertext may be
cut anywhere, inside a block too, and two runs from the same counter spend the same counters
(`used_cryptBlocks`).

The last point is the weakness of the mode, and the reason why the counters are part of the state.
Inside one stream no counter is spent twice unless the counter wraps (`counters_nodup`), and with
an injective block function distinct blocks then meet distinct keystream blocks
(`keystream_block_ne`); across streams nothing of the kind holds unless they start at different
counters, and that is up to the client.

A driver does not hold its buffers, it reads and writes them in memory.  `walkBlocks` is the same
loop over a memory of buffers, and `walkBlocks_eq` says that for two different buffers it changes
the destination and nothing else.  With the two buffers exchanged, or the same, it is another
function; so a client that passes them in the wrong order does not satisfy what is proved of
`cryptBlocks`.
-/

namespace CounterMode

variable {w b n : ℕ} [NeZero b]

/-- A block function: what the underlying cipher makes of a counter. -/
abbrev BlockFn (w b : ℕ) : Type := BitVec w → Fin b → UInt8

/-- The loop's state: the output buffer so far, the next counter, and the
counters already spent. -/
structure Stream (w n : ℕ) where
  out : Fin n → UInt8
  ctr : BitVec w
  used : List (BitVec w)

/-- One turn of the loop, at block `j` of the buffer. -/
def cryptBlock (F : BlockFn w b) (src : Fin n → UInt8) (j : ℕ) (s : Stream w n) :
    Stream w n where
  out i := if i.val / b = j then src i ^^^ F s.ctr (Fin.ofNat b i.val) else s.out i
  ctr := s.ctr + 1
  used := s.used ++ [s.ctr]

/-- The first `m` turns of the loop. -/
def cryptBlocks (F : BlockFn w b) (src : Fin n → UInt8) :
    ℕ → Stream w n → Stream w n
  | 0, s => s
  | m + 1, s => cryptBlock F src m (cryptBlocks F src m s)

/-- Byte `i` of the stream started at counter `c`. -/
def keystream (F : BlockFn w b) (c : BitVec w) (i : ℕ) : UInt8 :=
  F (c + BitVec.ofNat w (i / b)) (Fin.ofNat b i)

/-- The counters spent by `m` turns started at `c`. -/
def counters (c : BitVec w) (m : ℕ) : List (BitVec w) :=
  (List.range m).map fun j => c + BitVec.ofNat w j

/-- The counter after `m` turns. -/
theorem ctr_cryptBlocks (F : BlockFn w b) (src : Fin n → UInt8) (m : ℕ)
    (s : Stream w n) :
    (cryptBlocks F src m s).ctr = s.ctr + BitVec.ofNat w m := by
  induction m with
  | zero => simp [cryptBlocks]
  | succ m ih =>
      rw [cryptBlocks, cryptBlock, ih, BitVec.ofNat_add, BitVec.add_assoc]
      rfl

/-- The counters spent do not depend on the data. -/
theorem used_cryptBlocks (F : BlockFn w b) (src : Fin n → UInt8) (m : ℕ)
    (s : Stream w n) :
    (cryptBlocks F src m s).used = s.used ++ counters s.ctr m := by
  induction m with
  | zero => simp [cryptBlocks, counters]
  | succ m ih =>
      rw [cryptBlocks, cryptBlock, ih, ctr_cryptBlocks, counters, counters,
        List.range_succ, List.map_append, ← List.append_assoc]
      rfl

/-- **The loop in closed form.**  After `m` turns the first `m` blocks of the
output are the input under the keystream and the rest is untouched. -/
theorem out_cryptBlocks (F : BlockFn w b) (src : Fin n → UInt8) (m : ℕ)
    (s : Stream w n) (i : Fin n) :
    (cryptBlocks F src m s).out i =
      if i.val / b < m then src i ^^^ keystream F s.ctr i.val else s.out i := by
  induction m with
  | zero => simp [cryptBlocks]
  | succ m ih =>
      rw [cryptBlocks, cryptBlock]
      dsimp only
      rw [ctr_cryptBlocks, ih]
      rcases Nat.lt_trichotomy (i.val / b) m with hlt | heq | hgt
      · rw [if_neg (by omega), if_pos hlt, if_pos (by omega)]
      · rw [if_pos heq, if_pos (by omega), keystream, heq]
      · rw [if_neg (by omega), if_neg (by omega), if_neg (by omega)]

/-! ## The loop over buffers in memory -/

section Walk

variable {α : Type*} [DecidableEq α]

/-- The state of a walk: the buffers in memory and the next counter. -/
structure Walk (α : Type*) (w n : ℕ) where
  mem : α → Fin n → UInt8
  ctr : BitVec w

/-- One turn: block `j` of buffer `src`, as memory holds it now, goes through the
cipher into buffer `dst`. -/
def walkBlock (F : BlockFn w b) (dst src : α) (j : ℕ) (s : Walk α w n) : Walk α w n where
  mem := Function.update s.mem dst fun i =>
    if i.val / b = j then s.mem src i ^^^ F s.ctr (Fin.ofNat b i.val) else s.mem dst i
  ctr := s.ctr + 1

/-- The first `m` turns of the walk. -/
def walkBlocks (F : BlockFn w b) (dst src : α) : ℕ → Walk α w n → Walk α w n
  | 0, s => s
  | m + 1, s => walkBlock F dst src m (walkBlocks F dst src m s)

/-- **The walk between two buffers** is the loop on the contents of the source: no
turn disturbs the source, and no other buffer is touched. -/
theorem walkBlocks_eq (F : BlockFn w b) {dst src : α} (hne : src ≠ dst) (m : ℕ)
    (s : Walk α w n) :
    walkBlocks F dst src m s =
      ⟨Function.update s.mem dst (cryptBlocks F (s.mem src) m ⟨s.mem dst, s.ctr, []⟩).out,
        (cryptBlocks F (s.mem src) m ⟨s.mem dst, s.ctr, []⟩).ctr⟩ := by
  induction m with
  | zero =>
      simp only [walkBlocks, cryptBlocks, Function.update_eq_self]
  | succ m ih =>
      rw [walkBlocks, ih, walkBlock, cryptBlocks, cryptBlock]
      simp only [Function.update_idem, Function.update_self, Function.update_of_ne hne]

end Walk

/-- Applying the same keystream byte twice is the identity. -/
@[simp] theorem xor_keystream_cancel (x k : UInt8) : x ^^^ k ^^^ k = x := by
  rw [UInt8.xor_assoc, UInt8.xor_self, UInt8.xor_zero]

/-- As long as the counter does not wrap, no counter is spent twice inside one
stream. -/
theorem counters_nodup (c : BitVec w) {m : ℕ} (hm : m ≤ 2 ^ w) :
    (counters c m).Nodup := by
  refine List.Nodup.map_on ?_ List.nodup_range
  intro i hi j hj h
  have hi' : i < 2 ^ w := lt_of_lt_of_le (List.mem_range.mp hi) hm
  have hj' : j < 2 ^ w := lt_of_lt_of_le (List.mem_range.mp hj) hm
  have hof : BitVec.ofNat w i = BitVec.ofNat w j := by
    simpa using h
  have hnat := congrArg BitVec.toNat hof
  rwa [BitVec.toNat_ofNat, BitVec.toNat_ofNat, Nat.mod_eq_of_lt hi',
    Nat.mod_eq_of_lt hj'] at hnat

/-- Distinct blocks of one stream are XORed with distinct keystream blocks when
the block function is injective. -/
theorem keystream_block_ne {F : BlockFn w b} (hF : Function.Injective F)
    (c : BitVec w) {i j : ℕ} (hi : i < 2 ^ w) (hj : j < 2 ^ w) (hij : i ≠ j) :
    ∃ x : Fin b, keystream F c (b * i + x) ≠ keystream F c (b * j + x) := by
  have hb : 0 < b := Nat.pos_of_ne_zero (NeZero.ne b)
  have hdiv : ∀ (m : ℕ) (x : Fin b), (b * m + x.val) / b = m := fun m x => by
    rw [Nat.mul_add_div hb, Nat.div_eq_of_lt x.isLt, Nat.add_zero]
  have hmod : ∀ (m : ℕ) (x : Fin b), Fin.ofNat b (b * m + x.val) = x := fun m x => by
    refine Fin.ext ?_
    rw [Fin.val_ofNat, Nat.mul_add_mod, Nat.mod_eq_of_lt x.isLt]
  by_contra hall
  have heq : F (c + BitVec.ofNat w i) = F (c + BitVec.ofNat w j) := by
    funext x
    by_contra hx
    refine hall ⟨x, ?_⟩
    rwa [keystream, keystream, hdiv, hdiv, hmod, hmod]
  have hcount := hF heq
  have hnat := congrArg BitVec.toNat (show BitVec.ofNat w i = BitVec.ofNat w j by
    simpa using hcount)
  rw [BitVec.toNat_ofNat, BitVec.toNat_ofNat, Nat.mod_eq_of_lt hi,
    Nat.mod_eq_of_lt hj] at hnat
  exact hij hnat

end CounterMode
