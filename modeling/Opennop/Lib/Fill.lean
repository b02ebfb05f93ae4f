import Mathlib.Data.List.GetD
import Opennop.Lib.Bytes

/-!
# Filling a zeroed buffer

A buffer that starts with zeros and is written from its front is described by the list of what has
been written: `Filled m l` says that `m` holds `l` and zeros behind it. A store right behind `l`
appends its bytes, leaving bytes out appends zeros, and a store over bytes written before replaces
them.
-/

namespace Opennop

namespace Mem

/-- Store the low 32 bits of `v` as a little-endian host does. -/
def setLe32 (m : Mem) (k v : Nat) : Mem := (m.setLe16 k v).setLe16 (k + 2) (v / 65536)

def bytesBe16 (v : Nat) : List UInt8 := [UInt8.ofNat (v / 256), UInt8.ofNat v]

def bytesBe32 (v : Nat) : List UInt8 := bytesBe16 (v / 65536) ++ bytesBe16 v

/-- The bytes of a 32-bit value as a little-endian host stores it. -/
def bytesLe32 (v : Nat) : List UInt8 :=
  [UInt8.ofNat v, UInt8.ofNat (v / 256), UInt8.ofNat (v / 65536), UInt8.ofNat (v / 65536 / 256)]

@[simp] theorem length_bytesBe16 (v : Nat) : (bytesBe16 v).length = 2 := rfl

@[simp] theorem length_bytesBe32 (v : Nat) : (bytesBe32 v).length = 4 := rfl

@[simp] theorem length_bytesLe32 (v : Nat) : (bytesLe32 v).length = 4 := rfl

/-- The buffer holds `l` and zeros behind it. -/
def Filled (m : Mem) (l : List UInt8) : Prop := ∀ i, m i = l.getD i 0

theorem filled_ofList (l : List UInt8) : Filled (ofList l) l := fun _ => rfl

namespace Filled

variable {m : Mem} {l a b : List UInt8} {k : Nat}

theorem zero : Filled (fun _ => 0) [] := fun _ => rfl

theorem lt (h : Filled m l) {i : Nat} (hi : i < l.length) : m i = l[i] := by
  rw [h i, List.getD_eq_getElem?_getD, List.getElem?_eq_getElem hi]
  rfl

theorem ge (h : Filled m l) {i : Nat} (hi : l.length ≤ i) : m i = 0 := by
  rw [h i, List.getD_eq_getElem?_getD, List.getElem?_eq_none hi]
  rfl

theorem pad (h : Filled m l) (n : Nat) : Filled m (l ++ List.replicate n 0) := by
  intro i
  by_cases hi : i < l.length
  · rw [h i, List.getD_append _ _ _ _ hi]
  · rw [h.ge (by omega), List.getD_append_right _ _ _ _ (by omega), List.getD_eq_getElem?_getD,
      List.getElem?_replicate]
    split
    · rfl
    · rfl

theorem set_end (h : Filled m l) (hk : k = l.length) (x : UInt8) :
    Filled (m.set k x) (l ++ [x]) := by
  subst hk
  intro i
  by_cases hi : i = l.length
  · subst hi
    rw [set_self, List.getD_append_right _ _ _ _ (Nat.le_refl _), Nat.sub_self]
    rfl
  · rw [set_ne _ _ hi]
    by_cases hlt : i < l.length
    · rw [h i, List.getD_append _ _ _ _ hlt]
    · rw [h.ge (by omega), List.getD_eq_getElem?_getD, List.getElem?_eq_none (by simp; omega)]
      rfl

theorem setBe16_end (h : Filled m l) (hk : k = l.length) (v : Nat) :
    Filled (m.setBe16 k v) (l ++ bytesBe16 v) := by
  have h₁ := h.set_end hk (UInt8.ofNat (v / 256))
  have h₂ := h₁.set_end (k := k + 1) (by simp [hk]) (UInt8.ofNat v)
  rwa [List.append_assoc] at h₂

theorem setBe32_end (h : Filled m l) (hk : k = l.length) (v : Nat) :
    Filled (m.setBe32 k v) (l ++ bytesBe32 v) := by
  have h₁ := h.setBe16_end hk (v / 65536)
  have h₂ := h₁.setBe16_end (k := k + 2) (by simp [hk]) v
  rwa [List.append_assoc] at h₂

theorem setLe32_end (h : Filled m l) (hk : k = l.length) (v : Nat) :
    Filled (m.setLe32 k v) (l ++ bytesLe32 v) := by
  have h₁ := h.set_end hk (UInt8.ofNat v)
  have h₂ := h₁.set_end (k := k + 1) (by simp [hk]) (UInt8.ofNat (v / 256))
  have h₃ := h₂.set_end (k := k + 2) (by simp [hk]) (UInt8.ofNat (v / 65536))
  have h₄ := h₃.set_end (k := k + 3) (by simp [hk]) (UInt8.ofNat (v / 65536 / 256))
  simp only [List.append_assoc, List.cons_append, List.nil_append] at h₄
  exact h₄

theorem fill_end (h : Filled m l) (hk : k = l.length) (n : Nat) :
    Filled (m.fill k n 0) (l ++ List.replicate n 0) := by
  intro i
  by_cases hi : k ≤ i ∧ i < k + n
  · rw [fill_in _ _ hi.1 hi.2, ← h.pad n i, h.ge (hk ▸ hi.1)]
  · rw [fill_out _ _ (by omega), ← h.pad n i]

theorem set_mid {x : UInt8} (h : Filled m (a ++ x :: b)) (hk : k = a.length) (y : UInt8) :
    Filled (m.set k y) (a ++ y :: b) := by
  subst hk
  intro i
  by_cases hi : i = a.length
  · subst hi
    rw [set_self, List.getD_append_right _ _ _ _ (Nat.le_refl _), Nat.sub_self]
    rfl
  · rw [set_ne _ _ hi, h i]
    by_cases hlt : i < a.length
    · rw [List.getD_append _ _ _ _ hlt, List.getD_append _ _ _ _ hlt]
    · obtain ⟨j, hj⟩ : ∃ j, i - a.length = j + 1 := ⟨i - a.length - 1, by omega⟩
      rw [List.getD_append_right _ _ _ _ (by omega), List.getD_append_right _ _ _ _ (by omega), hj]
      rfl

theorem setBe16_mid {v : Nat} (h : Filled m (a ++ (bytesBe16 v ++ b))) (hk : k = a.length)
    (w : Nat) :
    Filled (m.setBe16 k w) (a ++ (bytesBe16 w ++ b)) := by
  have h₁ := h.set_mid hk (UInt8.ofNat (w / 256))
  have h₂ : Filled (m.set k (UInt8.ofNat (w / 256)))
      ((a ++ [UInt8.ofNat (w / 256)]) ++ UInt8.ofNat v :: b) := by
    rw [List.append_assoc]
    exact h₁
  have h₃ := h₂.set_mid (k := k + 1) (by simp [hk]) (UInt8.ofNat w)
  rw [List.append_assoc] at h₃
  exact h₃

/-! ### Reading -/

theorem holds (h : Filled m (a ++ (l ++ b))) (hk : k = a.length) : m.Holds k l := by
  subst hk
  apply read_eq
  intro j hj
  rw [h.lt (by simp; omega), List.getElem_append_right (by omega),
    List.getElem_append_left (by omega)]
  simp only [Nat.add_sub_cancel_left]

theorem read_all (h : Filled m l) : m.read 0 l.length = l :=
  holds (a := []) (b := []) (by rwa [List.append_nil]) rfl

end Filled

theorem be16_of_holds {m : Mem} {k v : Nat} (h : m.Holds k (bytesBe16 v)) (hv : v < 65536) :
    m.be16 k = v := by
  simp only [bytesBe16, holds_cons] at h
  unfold be16
  rw [h.1, h.2.1, UInt8.toNat_ofNat', UInt8.toNat_ofNat']
  omega

theorem be32_of_holds {m : Mem} {k v : Nat} (h : m.Holds k (bytesBe32 v)) (hv : v < 4294967296) :
    m.be32 k = v := by
  simp only [bytesBe32, holds_append] at h
  have hhigh := be16_of_holds h.1 (by omega)
  have hlow : m.Holds (k + 2) (bytesBe16 v) := h.2
  simp only [bytesBe16, holds_cons] at hlow
  unfold be32
  rw [hhigh, be16, hlow.1, hlow.2.1, UInt8.toNat_ofNat', UInt8.toNat_ofNat']
  omega

theorem le32_of_holds {m : Mem} {k v : Nat} (h : m.Holds k (bytesLe32 v)) (hv : v < 4294967296) :
    m.le32 k = v := by
  simp only [bytesLe32, holds_cons] at h
  unfold le32 le16
  rw [h.1, h.2.1, h.2.2.1, h.2.2.2.1]
  simp only [UInt8.toNat_ofNat']
  omega

end Mem

end Opennop
