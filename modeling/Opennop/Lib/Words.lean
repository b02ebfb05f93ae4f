import Opennop.Lib.Bytes

/-!
# Little-endian words as bytes

The low bytes of a number, the lowest first, and what a little-endian load makes of them.
-/

namespace Opennop

/-- The `n` low bytes of `v`. -/
def leBytes : Nat → Nat → List UInt8
  | 0, _ => []
  | n + 1, v => UInt8.ofNat v :: leBytes n (v / 256)

@[simp] theorem length_leBytes (n v : Nat) : (leBytes n v).length = n := by
  induction n generalizing v with
  | zero => rfl
  | succ n ih => rw [leBytes, List.length_cons, ih]

namespace Mem

/-- The three bytes at `k` as a little-endian number. -/
def le24 (m : Mem) (k : Nat) : Nat := m.le16 k + (m (k + 2)).toNat * 65536

theorem le16_lt (m : Mem) (k : Nat) : m.le16 k < 65536 := by
  have h₁ := (m k).toNat_lt
  have h₂ := (m (k + 1)).toNat_lt
  unfold le16
  omega

theorem le24_lt (m : Mem) (k : Nat) : m.le24 k < 16777216 := by
  have h₁ := le16_lt m k
  have h₂ := (m (k + 2)).toNat_lt
  unfold le24
  omega

theorem le32_eq (m : Mem) (k : Nat) : m.le32 k = m.le24 k + (m (k + 3)).toNat * 16777216 := by
  rw [show k + 3 = k + 2 + 1 from rfl]
  unfold le32 le24 le16
  omega

theorem le32_mod (m : Mem) (k : Nat) : m.le32 k % 16777216 = m.le24 k := by
  have := le24_lt m k
  rw [le32_eq]
  omega

theorem le24_congr {m m' : Mem} {k k' : Nat} (h : ∀ i < 3, m (k + i) = m' (k' + i)) :
    m.le24 k = m'.le24 k' := by
  have h0 := h 0 (by omega)
  unfold le24 le16
  rw [h 1 (by omega), h 2 (by omega)]
  simp only [Nat.add_zero] at h0
  rw [h0]

theorem eq_of_le24 {m m' : Mem} {k k' : Nat} (h : m.le24 k = m'.le24 k') :
    ∀ i < 3, m (k + i) = m' (k' + i) := by
  have h₀ := (m k).toNat_lt
  have h₁ := (m (k + 1)).toNat_lt
  have h₂ := (m (k + 2)).toNat_lt
  have h₀' := (m' k').toNat_lt
  have h₁' := (m' (k' + 1)).toNat_lt
  have h₂' := (m' (k' + 2)).toNat_lt
  unfold le24 le16 at h
  intro i hi
  apply UInt8.toNat_inj.1
  obtain rfl | rfl | rfl : i = 0 ∨ i = 1 ∨ i = 2 := by omega
  · simp only [Nat.add_zero]
    omega
  · omega
  · omega

theorem le16_of_leBytes {m : Mem} {k v : Nat} (h : m.Holds k (leBytes 2 v)) :
    m.le16 k = v % 65536 := by
  obtain ⟨h₀, h₁⟩ := holds_cons.1 h
  obtain ⟨h₁, -⟩ := holds_cons.1 h₁
  unfold le16
  rw [h₀, h₁, UInt8.toNat_ofNat', UInt8.toNat_ofNat']
  omega

theorem le24_of_leBytes {m : Mem} {k v : Nat} (h : m.Holds k (leBytes 3 v)) :
    m.le24 k = v % 16777216 := by
  have hsplit : leBytes 3 v = leBytes 2 v ++ [UInt8.ofNat (v / 256 / 256)] := rfl
  rw [hsplit] at h
  obtain ⟨h₀, h₁⟩ := holds_append.1 h
  obtain ⟨h₁, -⟩ := holds_cons.1 h₁
  rw [length_leBytes] at h₁
  unfold le24
  rw [le16_of_leBytes h₀, h₁, UInt8.toNat_ofNat']
  omega

theorem le32_of_leBytes {m : Mem} {k v : Nat} (h : m.Holds k (leBytes 4 v)) :
    m.le32 k = v % 4294967296 := by
  have hsplit : leBytes 4 v = leBytes 2 v ++ leBytes 2 (v / 256 / 256) := rfl
  rw [hsplit] at h
  obtain ⟨h₀, h₁⟩ := holds_append.1 h
  rw [length_leBytes] at h₁
  unfold le32
  rw [le16_of_leBytes h₀, le16_of_leBytes h₁]
  omega

end Mem

end Opennop
