import Opennop.Lib.Copying
import Opennop.Lib.Exec
import Opennop.Lib.Words

/-!
# QuickLZ: memory accesses and hashes (`lib/quicklz.c`)

The library is compiled with `QLZ_COMPRESSION_LEVEL` 1, `QLZ_STREAMING_BUFFER` 0 and without
`QLZ_MEMORY_SAFE`, for pointers of 64 bits. The sides of `#ifdef X86X64` are the two values of
`Build`: one loads and stores 32 bits at any address, the other goes byte by byte.
-/

namespace Opennop

namespace Quicklz

open Mem

/-- The sides of `#ifdef X86X64`. -/
inductive Build where
  | x86
  | portable
  deriving DecidableEq, Repr

/-- `MINOFFSET` -/
def minoffset : Nat := 2

/-- `UNCONDITIONAL_MATCHLEN` -/
def unconditionalMatchlen : Nat := 6

/-- `UNCOMPRESSED_END` -/
def uncompressedEnd : Nat := 4

/-- `CWORD_LEN` -/
def cwordLen : Nat := 4

/-- `QLZ_COMPRESSION_LEVEL` -/
def compressionLevel : UInt8 := 1

/-- `QLZ_HASH_VALUES` -/
def hashValues : Nat := 4096

/-- `same` -/
def same (m : Mem) (src : Nat) : Nat → Bool
  | 0 => true
  | n + 1 => if m (src + (n + 1)) = m src then same m src n else false

/-- `hash_func` -/
def hashFunc (i : Nat) : Nat := ((i >>> 12) ^^^ i) &&& (hashValues - 1)

/-- `fast_read` -/
def fastRead (b : Build) (m : Mem) (src bytes : Nat) : Nat :=
  match b with
  | .x86 => if 1 ≤ bytes ∧ bytes ≤ 4 then m.le32 src else 0
  | .portable =>
    match bytes with
    | 4 => m.le32 src
    | 3 => m.le24 src
    | 2 => m.le16 src
    | 1 => (m src).toNat
    | _ => 0

/-- `hashat` -/
def hashat (b : Build) (m : Mem) (src : Nat) : Nat := hashFunc (fastRead b m src 3)

/-- `fast_write` -/
def fastWrite (b : Build) (m : Mem) (f dst bytes : Nat) : Mem :=
  match bytes with
  | 4 => m.write dst (leBytes 4 f)
  | 3 =>
    match b with
    | .x86 => m.write dst (leBytes 4 f)
    | .portable => m.write dst (leBytes 3 f)
  | 2 => m.write dst (leBytes 2 f)
  | 1 => m.write dst (leBytes 1 f)
  | _ => m

def sizeLen (m : Mem) : Nat := if m 0 &&& 2 = 2 then 4 else 1

/-- `qlz_size_decompressed` -/
def qlzSizeDecompressed (b : Build) (m : Mem) : Nat :=
  let n := sizeLen m
  fastRead b m (1 + n) n &&& (0xffffffff >>> ((4 - n) * 8))

/-- `qlz_size_header` -/
def qlzSizeHeader (m : Mem) : Nat := 2 * sizeLen m + 1

/-- `memcpy_up`, inside the buffer that the decompressor writes. The source is a pointer of its
table, which may be null. -/
def memcpyUp (b : Build) (m : Mem) (dst : Nat) (src : Option Nat) (n : Nat) : Exec Mem :=
  match b, src with
  | .portable, some src => .ok (m.copyUp 1 1 dst src n)
  | .portable, none => if n = 0 then .ok m else .error .segv
  -- the loop makes its first pass before it looks at `n`
  | .x86, some src =>
    .ok (m.copyUp 4 (minoffset + 1) dst src (max 1 ((n + minoffset) / (minoffset + 1))))
  | .x86, none => .error .segv

/-! ## Bits -/

theorem and_fifteen (v : Nat) : v &&& 0xf = v % 16 := Nat.and_two_pow_sub_one_eq_mod v 4

theorem and_twelve_bits (v : Nat) : v &&& 0xfff = v % 4096 := Nat.and_two_pow_sub_one_eq_mod v 12

theorem or_shiftLeft {v i : Nat} (w : Nat) (h : v < 1 <<< i) : v ||| w <<< i = v + w <<< i := by
  rw [Nat.shiftLeft_eq, Nat.one_mul] at h
  rw [Nat.or_comm, ← Nat.shiftLeft_add_eq_or_of_lt h, Nat.add_comm]

/-! ## Reads -/

theorem fastRead_three (b : Build) (m : Mem) (k : Nat) :
    fastRead b m k 3 % 16777216 = m.le24 k := by
  cases b with
  | x86 => exact le32_mod m k
  | portable => exact Nat.mod_eq_of_lt (le24_lt m k)

theorem fastRead_four (b : Build) (m : Mem) (k : Nat) : fastRead b m k 4 = m.le32 k := by
  cases b <;> rfl

/-! ## Hashes -/

def keyAt (m : Mem) (k : Nat) : Nat := hashFunc (m.le24 k)

theorem hashFunc_lt (i : Nat) : hashFunc i < hashValues := by
  unfold hashFunc hashValues
  exact Nat.lt_of_le_of_lt Nat.and_le_right (by decide)

/-- The hash looks at 24 bits only. -/
theorem hashFunc_mod (i : Nat) : hashFunc (i % 16777216) = hashFunc i := by
  have hand : ∀ j, hashFunc j = (j / 4096 % 4096) ^^^ (j % 4096) := by
    intro j
    have h : ((j >>> 12) ^^^ j) &&& (2 ^ 12 - 1) = ((j >>> 12) ^^^ j) % 2 ^ 12 :=
      Nat.and_two_pow_sub_one_eq_mod _ 12
    have h' := Nat.xor_mod_two_pow (a := j >>> 12) (b := j) (n := 12)
    unfold hashFunc hashValues
    rw [show (4096 - 1 : Nat) = 2 ^ 12 - 1 from rfl, h, h', Nat.shiftRight_eq_div_pow]
  rw [hand, hand]
  congr 1 <;> omega

theorem hashFunc_fastRead (b : Build) (m : Mem) (k : Nat) :
    hashFunc (fastRead b m k 3) = keyAt m k := by
  rw [← hashFunc_mod, fastRead_three, keyAt]

theorem hashat_eq (b : Build) (m : Mem) (k : Nat) : hashat b m k = keyAt m k :=
  hashFunc_fastRead b m k

theorem keyAt_congr {m m' : Mem} {k k' : Nat} (h : ∀ i < 3, m (k + i) = m' (k' + i)) :
    keyAt m k = keyAt m' k' := by
  unfold keyAt
  rw [le24_congr h]

theorem keyAt_lt (m : Mem) (k : Nat) : keyAt m k < hashValues := hashFunc_lt _

/-! ## Writes -/

theorem fastWrite_holds (b : Build) (m : Mem) (f dst : Nat) {n : Nat} (h : 1 ≤ n) (hn : n ≤ 4) :
    (fastWrite b m f dst n).Holds dst (leBytes n f) := by
  obtain rfl | rfl | rfl | rfl : n = 1 ∨ n = 2 ∨ n = 3 ∨ n = 4 := by omega
  · exact holds_write m dst _
  · exact holds_write m dst _
  · cases b with
    | portable => exact holds_write m dst _
    | x86 =>
      have h := holds_write m dst (leBytes 4 f)
      have hsplit : leBytes 4 f = leBytes 3 f ++ [UInt8.ofNat (f / 256 / 256 / 256)] := rfl
      rw [hsplit] at h
      exact (holds_append.1 h).1
  · exact holds_write m dst _

theorem fastWrite_out (b : Build) (m : Mem) (f : Nat) {dst i : Nat} (n : Nat)
    (h : i < dst ∨ dst + 4 ≤ i) : fastWrite b m f dst n i = m i := by
  unfold fastWrite
  split
  · exact write_out m (by rw [length_leBytes]; exact h)
  · cases b <;> exact write_out m (by rw [length_leBytes]; omega)
  · exact write_out m (by rw [length_leBytes]; omega)
  · exact write_out m (by rw [length_leBytes]; omega)
  · rfl

/-! ## Copies -/

/-- A copy from at least three bytes behind repeats what is there. -/
theorem memcpyUp_agrees (b : Build) {m x : Mem} {dst src n : Nat} (hn : 0 < n)
    (hsrc : src + 3 ≤ dst) (hm : ∀ i < dst, m i = x i) (hx : ∀ i < n, x (dst + i) = x (src + i)) :
    ∃ m', memcpyUp b m dst (some src) n = .ok m' ∧ (∀ i < dst + n, m' i = x i) ∧
      ∀ i, dst + n + 3 ≤ i → m' i = m i := by
  cases b with
  | portable =>
    refine ⟨_, rfl, copyUp_agrees (Nat.le_refl 1) (by omega) hm hx (by omega), ?_⟩
    intro i hi
    exact copyUp_out (.inr (by omega))
  | x86 =>
    refine ⟨_, rfl, copyUp_agrees (by decide) hsrc hm hx ?_, ?_⟩
    · unfold minoffset
      omega
    · intro i hi
      apply copyUp_out
      unfold minoffset
      omega

end Quicklz

end Opennop
