import Mathlib.Data.List.Basic
import Mathlib.Tactic.Common

/-!
# Byte memory

A buffer is a total map from offsets to bytes; what lies past the end of the object a program holds
is whatever the neighbouring memory holds. The block operations are those of C's `string.h`
(`move` is `memmove`: the source is read before anything is written), and `read` is the list of the
bytes of a range, the form in which the contents of a buffer are stated.
-/

namespace Opennop

/-- Byte memory, addressed by the offset from the start of a buffer. -/
abbrev Mem := Nat → UInt8

namespace Mem

/-! ## Writing -/

def set (m : Mem) (k : Nat) (b : UInt8) : Mem := fun i => if i = k then b else m i

/-- `memmove(dst, src, n)` inside one buffer. -/
def move (m : Mem) (dst src n : Nat) : Mem := fun i =>
  if dst ≤ i ∧ i < dst + n then m (src + (i - dst)) else m i

/-- `memset(dst, b, n)`. -/
def fill (m : Mem) (dst n : Nat) (b : UInt8) : Mem := fun i =>
  if dst ≤ i ∧ i < dst + n then b else m i

/-- Copy the bytes `bs` of another buffer to `dst`. -/
def write (m : Mem) (dst : Nat) (bs : List UInt8) : Mem := fun i =>
  if dst ≤ i ∧ i < dst + bs.length then bs.getD (i - dst) 0 else m i

/-- A buffer with the bytes of `l`, followed by zeros. -/
def ofList (l : List UInt8) : Mem := fun i => l.getD i 0

@[simp] theorem set_self (m : Mem) (k : Nat) (b : UInt8) : m.set k b k = b := by
  simp [set]

theorem set_ne (m : Mem) {k i : Nat} (b : UInt8) (h : i ≠ k) : m.set k b i = m i := by
  simp [set, h]

theorem move_in (m : Mem) {dst src n i : Nat} (h₁ : dst ≤ i) (h₂ : i < dst + n) :
    m.move dst src n i = m (src + (i - dst)) := by
  simp [move, h₁, h₂]

theorem move_out (m : Mem) {dst src n i : Nat} (h : i < dst ∨ dst + n ≤ i) :
    m.move dst src n i = m i := by
  unfold move
  rw [if_neg (by omega)]

theorem fill_in (m : Mem) {dst n i : Nat} (b : UInt8) (h₁ : dst ≤ i) (h₂ : i < dst + n) :
    m.fill dst n b i = b := by
  simp [fill, h₁, h₂]

theorem fill_out (m : Mem) {dst n i : Nat} (b : UInt8) (h : i < dst ∨ dst + n ≤ i) :
    m.fill dst n b i = m i := by
  unfold fill
  rw [if_neg (by omega)]

theorem write_out (m : Mem) {dst i : Nat} {bs : List UInt8} (h : i < dst ∨ dst + bs.length ≤ i) :
    m.write dst bs i = m i := by
  unfold write
  rw [if_neg (by omega)]

theorem write_in (m : Mem) {dst i : Nat} {bs : List UInt8} (h₁ : dst ≤ i)
    (h₂ : i < dst + bs.length) : m.write dst bs i = bs[i - dst] := by
  unfold write
  rw [if_pos ⟨h₁, h₂⟩, List.getD_eq_getElem?_getD, List.getElem?_eq_getElem (by omega)]
  rfl

@[simp] theorem write_nil (m : Mem) (dst : Nat) : m.write dst [] = m := by
  funext i
  exact write_out m (by simp; omega)

theorem write_cons (m : Mem) (dst : Nat) (b : UInt8) (bs : List UInt8) :
    m.write dst (b :: bs) = (m.set dst b).write (dst + 1) bs := by
  funext i
  by_cases hi : i < dst ∨ dst + (b :: bs).length ≤ i
  · rw [write_out m hi, write_out _ (by simp at hi; omega), set_ne _ _ (by simp at hi; omega)]
  · rw [write_in m (by omega) (by omega)]
    by_cases h₀ : i = dst
    · subst h₀
      rw [write_out _ (by omega), set_self]
      simp
    · simp only [List.length_cons] at hi
      rw [write_in _ (by omega) (by omega)]
      simp only [show i - dst = i - (dst + 1) + 1 by omega, List.getElem_cons_succ]

/-! ## Reading a range -/

/-- The bytes at `o, o + 1, …, o + n - 1`. -/
def read (m : Mem) (o n : Nat) : List UInt8 := (List.range n).map fun j => m (o + j)

@[simp] theorem length_read (m : Mem) (o n : Nat) : (m.read o n).length = n := by
  simp [read]

@[simp] theorem read_zero (m : Mem) (o : Nat) : m.read o 0 = [] := rfl

@[simp] theorem getElem_read (m : Mem) (o n j : Nat) (h : j < (m.read o n).length) :
    (m.read o n)[j] = m (o + j) := by
  simp [read]

theorem getElem?_read (m : Mem) {o n j : Nat} (h : j < n) :
    (m.read o n)[j]? = some (m (o + j)) := by
  rw [List.getElem?_eq_getElem (by simpa using h), getElem_read]

theorem read_succ (m : Mem) (o n : Nat) : m.read o (n + 1) = m o :: m.read (o + 1) n := by
  unfold read
  rw [List.range_succ_eq_map, List.map_cons, List.map_map]
  congr 1
  apply List.map_congr_left
  intro j _
  simp only [Function.comp_apply]
  congr 1
  omega

theorem read_add (m : Mem) (o a b : Nat) : m.read o (a + b) = m.read o a ++ m.read (o + a) b := by
  induction a generalizing o with
  | zero => simp
  | succ a ih =>
    rw [show a + 1 + b = (a + b) + 1 by omega, read_succ, read_succ, ih (o + 1), List.cons_append,
      show o + 1 + a = o + (a + 1) by omega]

theorem read_copy {m m' : Mem} {o o' n : Nat} (h : ∀ j < n, m' (o' + j) = m (o + j)) :
    m'.read o' n = m.read o n := by
  unfold read
  exact List.map_congr_left fun j hj => h j (List.mem_range.1 hj)

theorem read_congr {m m' : Mem} {o n : Nat} (h : ∀ i, o ≤ i → i < o + n → m i = m' i) :
    m.read o n = m'.read o n := by
  unfold read
  apply List.map_congr_left
  intro j hj
  exact h (o + j) (by omega) (by have := List.mem_range.1 hj; omega)

theorem of_read {m : Mem} {o n : Nat} {l : List UInt8} (h : m.read o n = l) {j : Nat}
    (hj : j < l.length) : m (o + j) = l[j] := by
  subst h
  rw [getElem_read]

theorem read_eq {m : Mem} {o : Nat} {l : List UInt8}
    (h : ∀ j (hj : j < l.length), m (o + j) = l[j]) : m.read o l.length = l := by
  apply List.ext_getElem
  · simp
  · intro j h₁ h₂
    rw [getElem_read, h j h₂]

theorem read_append_iff {m : Mem} {o : Nat} {k l : List UInt8} :
    m.read o (k ++ l).length = k ++ l ↔
      m.read o k.length = k ∧ m.read (o + k.length) l.length = l := by
  rw [List.length_append, read_add]
  constructor
  · intro h
    exact List.append_inj h (by simp)
  · rintro ⟨h₁, h₂⟩
    rw [h₁, h₂]

/-! ## A range after a write -/

theorem read_fill (m : Mem) (dst n : Nat) (b : UInt8) :
    (m.fill dst n b).read dst n = List.replicate n b := by
  apply List.ext_getElem
  · simp
  · intro j h₁ h₂
    have hj : j < n := by simpa using h₁
    rw [getElem_read, fill_in m b (by omega) (by omega), List.getElem_replicate]

theorem read_write (m : Mem) (dst : Nat) (bs : List UInt8) :
    (m.write dst bs).read dst bs.length = bs := by
  apply read_eq
  intro j hj
  rw [write_in m (by omega) (by omega)]
  congr 1
  omega

/-! ## Known contents -/

/-- The bytes from `o` on are those of `l`. -/
def Holds (m : Mem) (o : Nat) (l : List UInt8) : Prop := m.read o l.length = l

instance (m : Mem) (o : Nat) (l : List UInt8) : Decidable (m.Holds o l) :=
  inferInstanceAs (Decidable (m.read o l.length = l))

@[simp] theorem holds_nil (m : Mem) (o : Nat) : m.Holds o [] := rfl

theorem holds_append {m : Mem} {o : Nat} {k l : List UInt8} :
    m.Holds o (k ++ l) ↔ m.Holds o k ∧ m.Holds (o + k.length) l := read_append_iff

theorem holds_cons {m : Mem} {o : Nat} {b : UInt8} {l : List UInt8} :
    m.Holds o (b :: l) ↔ m o = b ∧ m.Holds (o + 1) l := by
  unfold Holds
  rw [List.length_cons, read_succ, List.cons.injEq]

theorem holds_replicate {m : Mem} {o n : Nat} {b : UInt8} :
    m.Holds o (List.replicate n b) ↔ ∀ j < n, m (o + j) = b := by
  constructor
  · intro h j hj
    rw [of_read h (by simpa using hj), List.getElem_replicate]
  · intro h
    apply read_eq
    intro j hj
    rw [h j (by simpa using hj), List.getElem_replicate]

theorem Holds.congr {m m' : Mem} {o : Nat} {l : List UInt8} (h : m.Holds o l)
    (hm : ∀ i, o ≤ i → i < o + l.length → m' i = m i) : m'.Holds o l := by
  unfold Holds
  rw [read_congr hm]
  exact h

theorem Holds.read {m : Mem} {o : Nat} {l : List UInt8} (h : m.Holds o l) {n : Nat}
    (hn : l.length = n) : m.read o n = l := by
  subst hn
  exact h

theorem holds_read (m : Mem) (o n : Nat) : m.Holds o (m.read o n) := by
  unfold Holds
  rw [length_read]

theorem Holds.move {m : Mem} {src : Nat} {l : List UInt8} (h : m.Holds src l) {dst n : Nat}
    (hn : l.length ≤ n) : (m.move dst src n).Holds dst l := by
  apply read_eq
  intro j hj
  rw [move_in m (by omega) (by omega), show src + (dst + j - dst) = src + j by omega]
  exact of_read h hj

theorem holds_fill (m : Mem) (dst n : Nat) (b : UInt8) :
    (m.fill dst n b).Holds dst (List.replicate n b) := by
  unfold Holds
  rw [List.length_replicate]
  exact read_fill m dst n b

theorem holds_write (m : Mem) (dst : Nat) (bs : List UInt8) : (m.write dst bs).Holds dst bs :=
  read_write m dst bs

/-! ## What a write leaves alone -/

/-- The two memories differ at most in the `n` bytes from `o` on. -/
def SameOutside (m m' : Mem) (o n : Nat) : Prop := ∀ i, i < o ∨ o + n ≤ i → m' i = m i

namespace SameOutside

theorem refl (m : Mem) (o n : Nat) : SameOutside m m o n := fun _ _ => rfl

theorem trans {m₁ m₂ m₃ : Mem} {o n : Nat} (h₁ : SameOutside m₁ m₂ o n)
    (h₂ : SameOutside m₂ m₃ o n) : SameOutside m₁ m₃ o n :=
  fun i hi => (h₂ i hi).trans (h₁ i hi)

theorem mono {m m' : Mem} {o n o' n' : Nat} (h : SameOutside m m' o n) (ho : o' ≤ o)
    (hn : o + n ≤ o' + n') : SameOutside m m' o' n' :=
  fun i hi => h i (by omega)

theorem holds {m m' : Mem} {o n k : Nat} {l : List UInt8} (h : SameOutside m m' o n)
    (hl : m.Holds k l) (hk : k + l.length ≤ o ∨ o + n ≤ k) : m'.Holds k l :=
  hl.congr fun i _ _ => h i (by omega)

end SameOutside

/-! ## Integers of several bytes -/

/-- A 16-bit value in network byte order (`ntohs` of the two bytes at `k`). -/
def be16 (m : Mem) (k : Nat) : Nat := (m k).toNat * 256 + (m (k + 1)).toNat

def be32 (m : Mem) (k : Nat) : Nat := be16 m k * 65536 + be16 m (k + 2)

def le16 (m : Mem) (k : Nat) : Nat := (m k).toNat + (m (k + 1)).toNat * 256

def le32 (m : Mem) (k : Nat) : Nat := le16 m k + le16 m (k + 2) * 65536

/-- Store the low 16 bits of `v` in network byte order. -/
def setBe16 (m : Mem) (k v : Nat) : Mem :=
  (m.set k (UInt8.ofNat (v / 256))).set (k + 1) (UInt8.ofNat v)

/-- Store the low 32 bits of `v` in network byte order. -/
def setBe32 (m : Mem) (k v : Nat) : Mem := (m.setBe16 k (v / 65536)).setBe16 (k + 2) v

/-- Store the low 16 bits of `v` as a little-endian host does. -/
def setLe16 (m : Mem) (k v : Nat) : Mem :=
  (m.set k (UInt8.ofNat v)).set (k + 1) (UInt8.ofNat (v / 256))

theorem be16_lt (m : Mem) (k : Nat) : m.be16 k < 65536 := by
  have h₁ := (m k).toNat_lt
  have h₂ := (m (k + 1)).toNat_lt
  unfold be16
  omega

theorem be32_lt (m : Mem) (k : Nat) : m.be32 k < 4294967296 := by
  have h₁ := be16_lt m k
  have h₂ := be16_lt m (k + 2)
  unfold be32
  omega

theorem be16_congr {m m' : Mem} {k : Nat} (h : ∀ i, k ≤ i → i < k + 2 → m i = m' i) :
    m.be16 k = m'.be16 k := by
  unfold be16
  rw [h k (by omega) (by omega), h (k + 1) (by omega) (by omega)]

theorem setBe16_out (m : Mem) {k i : Nat} (v : Nat) (h : i < k ∨ k + 2 ≤ i) :
    m.setBe16 k v i = m i := by
  unfold setBe16
  rw [set_ne _ _ (by omega), set_ne _ _ (by omega)]

theorem setBe32_out (m : Mem) {k i : Nat} (v : Nat) (h : i < k ∨ k + 4 ≤ i) :
    m.setBe32 k v i = m i := by
  unfold setBe32
  rw [setBe16_out _ _ (by omega), setBe16_out _ _ (by omega)]

theorem setLe16_out (m : Mem) {k i : Nat} (v : Nat) (h : i < k ∨ k + 2 ≤ i) :
    m.setLe16 k v i = m i := by
  unfold setLe16
  rw [set_ne _ _ (by omega), set_ne _ _ (by omega)]

@[simp] theorem be16_setBe16 (m : Mem) (k v : Nat) : (m.setBe16 k v).be16 k = v % 65536 := by
  unfold be16 setBe16
  rw [set_ne _ _ (show k ≠ k + 1 by omega), set_self, set_self]
  simp only [UInt8.toNat_ofNat']
  omega

@[simp] theorem be32_setBe32 (m : Mem) (k v : Nat) : (m.setBe32 k v).be32 k = v % 4294967296 := by
  unfold be32 setBe32
  have h : ((m.setBe16 k (v / 65536)).setBe16 (k + 2) v).be16 k = v / 65536 % 65536 := by
    rw [← be16_setBe16 m k (v / 65536)]
    exact be16_congr fun i h₁ h₂ => setBe16_out _ _ (by omega)
  rw [h, be16_setBe16]
  omega

theorem be32_congr {m m' : Mem} {k : Nat} (h : ∀ i, k ≤ i → i < k + 4 → m i = m' i) :
    m.be32 k = m'.be32 k := by
  unfold be32
  rw [be16_congr fun i h₁ h₂ => h i (by omega) (by omega),
    be16_congr (k := k + 2) fun i h₁ h₂ => h i (by omega) (by omega)]

theorem le16_congr {m m' : Mem} {k : Nat} (h : ∀ i, k ≤ i → i < k + 2 → m i = m' i) :
    m.le16 k = m'.le16 k := by
  unfold le16
  rw [h k (by omega) (by omega), h (k + 1) (by omega) (by omega)]

theorem le32_congr {m m' : Mem} {k : Nat} (h : ∀ i, k ≤ i → i < k + 4 → m i = m' i) :
    m.le32 k = m'.le32 k := by
  unfold le32
  rw [le16_congr fun i h₁ h₂ => h i (by omega) (by omega),
    le16_congr (k := k + 2) fun i h₁ h₂ => h i (by omega) (by omega)]

end Mem

end Opennop
