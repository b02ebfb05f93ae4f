import Mathlib.Tactic.IntervalCases
import Mathlib.Tactic.NormNum
import Opennop.Packet.Compressed

/-!
# Reading back the value of an option

`__set_tcp_option` writes the bytes of a 64-bit value; `__get_tcp_option` adds them up again, each
one shifted as an `int`. The sum is the value below 2^31 only: the fourth byte brings its sign with
it, and the bytes above it are shifted by their position modulo 32.
-/

namespace Opennop

open Mem

variable {p : Mem} {D : Nat} {os : List Opt} {d : List UInt8}

/-! ## The sum of the bytes -/

/-- The bytes of an option, each shifted to its place, as integers. -/
def shiftedSum : List UInt8 → Int
  | [] => 0
  | b :: bs => shiftByte b bs.length + shiftedSum bs

theorem sumData_eq (x : List UInt8) : ∀ acc : Int, 0 ≤ acc → acc < 18446744073709551616 →
    sumData x acc = (acc + shiftedSum x) % 18446744073709551616 := by
  induction x with
  | nil =>
    intro acc h₀ hlt
    rw [sumData, shiftedSum, Int.add_zero, Int.emod_eq_of_lt h₀ hlt]
  | cons b bs ih =>
    intro acc h₀ hlt
    rw [sumData, shiftedSum,
      ih _ (Int.emod_nonneg _ (by decide)) (Int.emod_lt_of_pos _ (by decide)),
      Int.emod_add_emod, Int.add_assoc]

/-- A 32-bit number as an `int`. -/
def toInt32 (w : Nat) : Int := if w < 2147483648 then w else w - 4294967296

theorem shiftedSum_succ (n v : Nat) : shiftedSum (dataBytes (n + 1) v) =
    shiftByte (UInt8.ofNat (v / 2 ^ (8 * n % 64))) n + shiftedSum (dataBytes n v) := by
  rw [dataBytes_succ, shiftedSum, length_dataBytes]

theorem shiftByte_add {n : Nat} (hn : n < 4) (w : Nat) :
    shiftByte (UInt8.ofNat (w / 256 ^ n)) n + toInt32 (w % 256 ^ n) =
      toInt32 (w % 256 ^ (n + 1)) := by
  unfold shiftByte toInt32
  rw [UInt8.toNat_ofNat']
  interval_cases n <;> norm_num only <;> split_ifs <;> omega

theorem two_pow_eight_mul (n : Nat) : 2 ^ (8 * n) = 256 ^ n := pow_mul 2 8 n

theorem shiftedSum_low {n : Nat} (v : Nat) (hn : n ≤ 4) :
    shiftedSum (dataBytes n v) = toInt32 (v % 256 ^ n) := by
  induction n with
  | zero =>
    rw [pow_zero, Nat.mod_one]
    rfl
  | succ n ih =>
    have hbyte : 2 ^ (8 * n % 64) = 256 ^ n := by
      rw [Nat.mod_eq_of_lt (by omega), two_pow_eight_mul]
    rw [shiftedSum_succ, ih (by omega), hbyte, shiftByte_add (by omega)]

theorem shiftedSum_high {m : Nat} (v : Nat) (hm : m ≤ 4) : shiftedSum (dataBytes (4 + m) v) =
    toInt32 (v % 4294967296) + toInt32 (v / 4294967296 % 256 ^ m) := by
  induction m with
  | zero =>
    rw [pow_zero, Nat.mod_one]
    exact (shiftedSum_low v (Nat.le_refl 4)).trans (Int.add_zero _).symm
  | succ m ih =>
    have hbyte : v / 2 ^ (8 * (4 + m) % 64) = v / 4294967296 / 256 ^ m := by
      rw [Nat.mod_eq_of_lt (by omega), two_pow_eight_mul, pow_add, Nat.div_div_eq_div_mul,
        show 256 ^ 4 = 4294967296 from rfl]
    have hshift : ∀ b, shiftByte b (4 + m) = shiftByte b m := by
      intro b
      unfold shiftByte
      rw [show 8 * (4 + m) % 32 = 8 * m % 32 by omega]
    rw [← Nat.add_assoc, shiftedSum_succ, ih (by omega), hbyte, hshift, ← shiftByte_add (by omega)]
    omega

theorem sumData_dataBytes {n v : Nat} (hn : n ≤ 8) (hv : v < 256 ^ n) :
    sumData (dataBytes n v) 0 =
      (toInt32 (v % 4294967296) + toInt32 (v / 4294967296)) % 18446744073709551616 := by
  rw [sumData_eq _ 0 (by decide) (by decide), Int.zero_add]
  congr 1
  by_cases h4 : n ≤ 4
  · have hle : 256 ^ n ≤ 256 ^ 4 := Nat.pow_le_pow_right (by decide) h4
    have hlt : v < 4294967296 := Nat.lt_of_lt_of_le hv hle
    rw [shiftedSum_low v h4, Nat.mod_eq_of_lt hv, Nat.mod_eq_of_lt hlt, Nat.div_eq_of_lt hlt]
    exact (Int.add_zero _).symm
  · obtain ⟨m, rfl⟩ := Nat.exists_eq_add_of_le (Nat.le_of_not_le h4)
    rw [pow_add] at hv
    have hhigh : v / 4294967296 < 256 ^ m := Nat.div_lt_of_lt_mul hv
    rw [shiftedSum_high v (by omega), Nat.mod_eq_of_lt hhigh]

theorem emod_eq_of_small {s : Int} (h : -18446744073709551616 ≤ s) (h' : s < 18446744073709551616) :
    s % 18446744073709551616 = if s < 0 then s + 18446744073709551616 else s := by
  by_cases hneg : s < 0
  · rw [if_pos hneg, ← Int.add_emod_right, Int.emod_eq_of_lt (by omega) (by omega)]
  · rw [if_neg hneg, Int.emod_eq_of_lt (by omega) h']

/-- The bytes of a value add up to it exactly if it fits an `int`. -/
theorem sumData_dataBytes_iff {n v : Nat} (hn : n ≤ 8) (hv : v < 256 ^ n) :
    (sumData (dataBytes n v) 0).toNat = v ↔ v < 2147483648 := by
  have hle : 256 ^ n ≤ 256 ^ 8 := Nat.pow_le_pow_right (by decide) hn
  have hlt : v < 18446744073709551616 := Nat.lt_of_lt_of_le hv hle
  rw [sumData_dataBytes hn hv]
  have hlow : v % 4294967296 < 4294967296 := Nat.mod_lt _ (by decide)
  have hhigh : v / 4294967296 < 4294967296 := Nat.div_lt_of_lt_mul hlt
  have hsplit : v = 4294967296 * (v / 4294967296) + v % 4294967296 := (Nat.div_add_mod _ _).symm
  generalize v / 4294967296 = high at *
  generalize v % 4294967296 = low at *
  subst hsplit
  unfold toInt32
  rw [emod_eq_of_small (by split_ifs <;> omega) (by split_ifs <;> omega)]
  split_ifs <;> omega

/-! ## Reading what was written -/

/-- Where an option occurs at most once, the option of its kind is the one of its kind and
length. -/
theorem firstOfKind_of_once {k : UInt8} {len : Nat} {o : Opt}
    (honce : (os.filter fun o => o.kind == k).length ≤ 1) (h : firstOfKindLen k len os = some o) :
    firstOfKind k os = some o := by
  induction os with
  | nil => cases h
  | cons o' os ih =>
    unfold firstOfKind firstOfKindLen at *
    by_cases hk : o'.kind = k
    · -- this is the one option of the kind
      rw [List.filter_cons_of_pos (by simpa using hk), List.length_cons] at honce
      have hnone : ∀ a ∈ os, ¬ (a.kind == k) = true :=
        List.filter_eq_nil_iff.1 (List.length_eq_zero_iff.1 (by omega))
      rw [List.find?_cons_of_pos (by simpa using hk)]
      rcases List.mem_cons.1 (List.mem_of_find?_eq_some h) with rfl | hmem
      · rfl
      · have hkind := List.find?_some h
        rw [Bool.and_eq_true] at hkind
        exact absurd hkind.1 (hnone o hmem)
    · rw [List.find?_cons_of_neg (by simpa using hk)]
      rw [List.find?_cons_of_neg (by simp [hk])] at h
      rw [List.filter_cons_of_neg (by simpa using hk)] at honce
      exact ih honce h

theorem firstOfKind_setOption_of_once {k : UInt8} {x : List UInt8}
    (honce : (os.filter fun o => o.kind == k).length ≤ 1)
    (hset : (firstOfKindLen k (x.length + 2) os).isSome ∨ used os + (x.length + 2) ≤ 40) :
    firstOfKind k (setOption k x D os).2 = some (.opt k x) := by
  unfold setOption
  cases hf : firstOfKindLen k (x.length + 2) os with
  | some o =>
    have ho := List.find?_some hf
    rw [Bool.and_eq_true, beq_iff_eq, beq_iff_eq] at ho
    rw [Option.isSome_some, if_pos rfl]
    rw [firstOfKind_overwriteFirst (firstOfKind_of_once honce hf), if_pos ho.2]
  | none =>
    rw [hf] at hset
    rw [Option.isSome_none, if_neg (by simp), if_pos (by simpa using hset)]
    exact List.find?_cons_of_pos (by simp [Opt.kind])

/-- **A value that was written is read back exactly if it is below 2^31.** -/
theorem getTcpOption_set_iff (p : Mem) (os : List Opt) (h : WellFormed p os) (k : UInt8)
    (hk : 2 ≤ k) (honce : (os.filter fun o => o.kind == k).length ≤ 1) (len : Nat) (h₃ : 3 ≤ len)
    (h₁₀ : len ≤ 10) (v : Nat) (hv : v < 2 ^ (8 * (len - 2))) (p' : Mem)
    (hset : setTcpOption p k len v = .ok (p', 0)) :
    getTcpOption p' k = .ok v ↔ v < 2 ^ 31 := by
  have hlen : (dataBytes (len - 2) v).length = len - 2 := length_dataBytes _ _
  obtain ⟨hs, ht⟩ := h.payload_shows
  have hlt := totLen_lt p
  obtain ⟨q, r, hq, h', -, hr⟩ :=
    setTcpOption_shows hs (ht ▸ hlt) hk (show 2 ≤ len by omega) (by omega) v
  rw [hset, Except.ok.injEq, Prod.mk.injEq] at hq
  obtain ⟨rfl, rfl⟩ := hq
  have hfirst := firstOfKind_setOption_of_once (D := p.doff) (x := dataBytes (len - 2) v) honce
    (by rw [hlen, Nat.sub_add_cancel (by omega)]; exact hr.1 rfl)
  rw [two_pow_eight_mul] at hv
  rw [getTcpOption_shows h' hk, hfirst]
  dsimp only [Opt.value]
  rw [if_neg (by rw [hlen]; omega), Except.ok.injEq, sumData_dataBytes_iff (by omega) hv,
    show 2 ^ 31 = 2147483648 from rfl]

theorem getTcpOption_set_segment : ∃ p', setTcpOption (segment []) 31 6 0x1020304 = .ok (p', 0) ∧
    getTcpOption p' 31 = .ok 0x1020304 := by
  have hwf : WellFormed (segment []) [] := by decide
  obtain ⟨hs, ht⟩ := hwf.payload_shows
  have hk : (2 : UInt8) ≤ 31 := by decide
  obtain ⟨p', r, hset, -, -, hr⟩ := setTcpOption_shows hs (ht ▸ totLen_lt _) hk
    (show 2 ≤ 6 by decide) (by decide) 0x1020304
  obtain rfl := hr.2 (.inr (by decide))
  exact ⟨p', hset, (getTcpOption_set_iff (segment []) [] hwf 31 hk (by decide) 6 (by decide)
    (by decide) 0x1020304 (by decide) p' hset).2 (by decide)⟩

/-- Four bytes with the highest bit set are read as a negative `int`. -/
theorem getTcpOption_set_negative :
    ∃ p', WellFormed (segment []) [] ∧ setTcpOption (segment []) 31 6 0x80000000 = .ok (p', 0) ∧
      getTcpOption p' 31 = .ok 0xffffffff80000000 := by
  have hwf : WellFormed (segment []) [] := by decide
  obtain ⟨hs, ht⟩ := hwf.payload_shows
  have hk : (2 : UInt8) ≤ 31 := by decide
  obtain ⟨p', r, hset, h', -, hr⟩ := setTcpOption_shows hs (ht ▸ totLen_lt _) hk
    (show 2 ≤ 6 by decide) (by decide) 0x80000000
  obtain rfl := hr.2 (.inr (by decide))
  refine ⟨p', hwf, hset, ?_⟩
  rw [getTcpOption_shows h' hk, firstOfKind_setOption_of_once (by decide) (.inr (by decide))]
  dsimp only [Opt.value]
  rw [if_neg (by decide), sumData_dataBytes (by decide) (by decide)]
  decide

end Opennop
