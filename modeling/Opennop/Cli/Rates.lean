import Mathlib.Algebra.Order.Field.Rat
import Mathlib.Tactic.Linarith
import Mathlib.Tactic.NormNum
import Mathlib.Tactic.Positivity
import Mathlib.Tactic.Ring

/-!
# Rates in the CLI (`opennopd/subsystems/clicommands.c`)

`bytestostringbps` prints a count of bytes as a bit rate, for the tables of `show workers` and `show
fetcher`. The number of bits is an `int`: it is the product modulo `2 ^ 32`, and negative from `2 ^
31` on. The fraction behind the point is a tenth of the remainder, printed without leading zeros.
-/

namespace Opennop

/-! ## The text -/

/-- The `%i` of `sprintf`. -/
def printInt (n : Int) : List Char :=
  if n < 0 then '-' :: Nat.toDigits 10 n.natAbs else Nat.toDigits 10 n.natAbs

inductive RateUnit where
  | bps
  | kbps
  | mbps
  | gbps
  deriving DecidableEq

/-- The name of the unit in the text, with the blank before it. -/
def RateUnit.text : RateUnit → List Char
  | .bps => [' ', 'b', 'p', 's']
  | .kbps => [' ', 'K', 'b', 'p', 's']
  | .mbps => [' ', 'M', 'b', 'p', 's']
  | .gbps => [' ', 'G', 'b', 'p', 's']

/-- `bytestostringbps`: what `output` holds after the call, up to its NUL. -/
def bytestostringbps (output : List Char) (count : UInt32) : List Char :=
  let bits := (count * 8).toInt32.toInt
  if bits < 1024 then
    printInt bits ++ RateUnit.bps.text
  else if (bits.tdiv 1024).tdiv 1024 ≥ 1024 then
    let I := ((bits.tdiv 1024).tdiv 1024).tdiv 1024
    let D := (((bits.tdiv 1024).tdiv 1024).tmod 1024).tdiv 10
    printInt I ++ '.' :: printInt D ++ RateUnit.gbps.text
  else if bits.tdiv 1024 ≥ 1024 then
    let I := (bits.tdiv 1024).tdiv 1024
    let D := ((bits.tdiv 1024).tmod 1024).tdiv 10
    printInt I ++ '.' :: printInt D ++ RateUnit.mbps.text
  else if bits ≥ 1024 then
    let I := bits.tdiv 1024
    let D := (bits.tmod 1024).tdiv 10
    printInt I ++ '.' :: printInt D ++ RateUnit.kbps.text
  else
    output

/-! ## What is printed -/

def RateUnit.size : RateUnit → Nat
  | .bps => 1
  | .kbps => 1024
  | .mbps => 1024 ^ 2
  | .gbps => 1024 ^ 3

/-- The bits that make one of the unit below. -/
def RateUnit.below : RateUnit → Nat
  | .bps => 1
  | .kbps => 1
  | .mbps => 1024
  | .gbps => 1024 ^ 2

/-- The unit in which so many bits are printed. -/
def unitOf (bits : Nat) : RateUnit :=
  if bits < 1024 then .bps
  else if bits < 1024 ^ 2 then .kbps
  else if bits < 1024 ^ 3 then .mbps
  else .gbps

def wholePart (bits : Nat) : Nat := bits / (unitOf bits).size

/-- What is left of the unit, counted in the unit below. -/
def restPart (bits : Nat) : Nat := bits / (unitOf bits).below % 1024

theorem restPart_lt (n : Nat) : restPart n < 1024 := Nat.mod_lt _ (by decide)

theorem unitOf_size {n : Nat} (h : 1024 ≤ n) :
    (unitOf n).size = 1024 * (unitOf n).below ∧ 0 < (unitOf n).below ∧ (unitOf n).size ≤ n := by
  unfold unitOf
  split_ifs <;> simp [RateUnit.size, RateUnit.below] <;> omega

/-- The number that `count` bytes are taken for, as a 32-bit word. -/
def rateWord (count : UInt32) : Nat := 8 * count.toNat % 2 ^ 32

theorem rateWord_lt (count : UInt32) : rateWord count < 2 ^ 32 := Nat.mod_lt _ (by decide)

theorem toInt_rateWord (count : UInt32) :
    (count * 8).toInt32.toInt =
      if rateWord count < 2 ^ 31 then (rateWord count : Int) else rateWord count - 2 ^ 32 := by
  have h : (count * 8).toNat = rateWord count := by
    simp [rateWord, UInt32.toNat_mul, Nat.mul_comm]
  have hlt := rateWord_lt count
  rw [← Int32.toInt_toBitVec, UInt32.toBitVec_toInt32, BitVec.toInt_eq_toNat_bmod,
    UInt32.toNat_toBitVec, h, Int.bmod_def]
  split_ifs <;> omega

theorem printInt_natCast (n : Nat) : printInt n = Nat.toDigits 10 n := by
  simp [printInt]

/-- From `2 ^ 31` on the number is negative. -/
theorem bytestostringbps_negative (output : List Char) {count : UInt32}
    (h : 2 ^ 31 ≤ rateWord count) :
    bytestostringbps output count =
      '-' :: (Nat.toDigits 10 (2 ^ 32 - rateWord count) ++ RateUnit.bps.text) := by
  have hlt := rateWord_lt count
  have hb : (count * 8).toInt32.toInt = -((2 ^ 32 - rateWord count : Nat) : Int) := by
    rw [toInt_rateWord, if_neg (by omega)]
    omega
  simp only [bytestostringbps, hb]
  rw [if_pos (by omega), printInt, if_pos (by omega)]
  simp

theorem bytestostringbps_small (output : List Char) {count : UInt32} (h : rateWord count < 1024) :
    bytestostringbps output count = Nat.toDigits 10 (rateWord count) ++ RateUnit.bps.text := by
  have hb : (count * 8).toInt32.toInt = (rateWord count : Int) := by
    rw [toInt_rateWord, if_pos (by omega)]
  simp only [bytestostringbps, hb]
  rw [if_pos (by omega), printInt_natCast]

theorem bytestostringbps_large (output : List Char) {count : UInt32} (h : 1024 ≤ rateWord count)
    (hlt : rateWord count < 2 ^ 31) :
    bytestostringbps output count =
      Nat.toDigits 10 (wholePart (rateWord count)) ++
        '.' :: Nat.toDigits 10 (restPart (rateWord count) / 10) ++
        (unitOf (rateWord count)).text := by
  have hb : (count * 8).toInt32.toInt = (rateWord count : Int) := by
    rw [toInt_rateWord, if_pos hlt]
  generalize rateWord count = n at *
  have hdiv (a : Nat) : (a : Int).tdiv 1024 = ((a / 1024 : Nat) : Int) := rfl
  have hmod (a : Nat) : (a : Int).tmod 1024 = ((a % 1024 : Nat) : Int) := rfl
  have hten (a : Nat) : (a : Int).tdiv 10 = ((a / 10 : Nat) : Int) := rfl
  simp only [bytestostringbps, hb, hdiv, hmod, hten, printInt_natCast, ge_iff_le, wholePart,
    restPart, unitOf]
  split_ifs <;> first | omega | simp [RateUnit.size, RateUnit.below, Nat.div_div_eq_div_mul]

/-! ## Room for the text -/

/-- The counts whose text fits into the `bps` buffers of `cli_show_workers` and
`cli_show_fetcher`. -/
def FitsBps (count : UInt32) : Prop :=
  let n := rateWord count
  if 2 ^ 31 ≤ n then 2 ^ 32 - n < 10 ^ 5
  else n < 1024 ∨ wholePart n < 10 ∨ (wholePart n < 100 ∧ restPart n < 1000) ∨
    (wholePart n < 1000 ∧ restPart n < 100)

/-- The totals whose text fits into the smaller buffers of `cli_show_workers`. -/
def FitsTotal (count : UInt32) : Prop :=
  let n := rateWord count
  if 2 ^ 31 ≤ n then 2 ^ 32 - n < 10 ^ 3
  else n < 1024 ∨ (wholePart n < 10 ∧ restPart n < 100)

theorem length_toDigits_le {n k : Nat} (hk : 0 < k) : (Nat.toDigits 10 n).length ≤ k ↔ n < 10 ^ k :=
  Nat.length_toDigits_le_iff (by decide) hk

theorem bytestostringbps_length_negative (output : List Char) {count : UInt32} {k : Nat}
    (hk : 0 < k) (h : 2 ^ 31 ≤ rateWord count) :
    (bytestostringbps output count).length + 1 ≤ k + 6 ↔ 2 ^ 32 - rateWord count < 10 ^ k := by
  rw [bytestostringbps_negative output h, ← length_toDigits_le hk]
  simp [RateUnit.text]

theorem bytestostringbps_length_small (output : List Char) {count : UInt32}
    (h : rateWord count < 1024) :
    (bytestostringbps output count).length + 1 ≤ 9 := by
  have hd : (Nat.toDigits 10 (rateWord count)).length ≤ 4 :=
    (length_toDigits_le (by decide)).2 (by omega)
  rw [bytestostringbps_small output h]
  simp [RateUnit.text]
  omega

theorem bytestostringbps_length_large (output : List Char) {count : UInt32}
    (h : 1024 ≤ rateWord count) (hlt : rateWord count < 2 ^ 31) :
    (bytestostringbps output count).length + 1 =
      (Nat.toDigits 10 (wholePart (rateWord count))).length +
        (Nat.toDigits 10 (restPart (rateWord count) / 10)).length + 7 := by
  have hu : (unitOf (rateWord count)).text.length = 5 := by
    unfold unitOf
    split_ifs <;> first | omega | rfl
  rw [bytestostringbps_large output h hlt]
  simp only [List.length_append, List.length_cons, hu]
  omega

/-- For each count, when the text with its NUL fits into eleven bytes, and when into nine. -/
theorem bytestostringbps_fits_iff (output : List Char) (count : UInt32) :
    ((bytestostringbps output count).length + 1 ≤ 11 ↔ FitsBps count) ∧
      ((bytestostringbps output count).length + 1 ≤ 9 ↔ FitsTotal count) := by
  unfold FitsBps FitsTotal
  by_cases hn : 2 ^ 31 ≤ rateWord count
  · simp only [hn, ite_true]
    exact ⟨bytestostringbps_length_negative output (k := 5) (by decide) hn,
      bytestostringbps_length_negative output (k := 3) (by decide) hn⟩
  · simp only [hn, ite_false]
    by_cases hs : rateWord count < 1024
    · have := bytestostringbps_length_small output hs
      simp only [hs, true_or, iff_true]
      omega
    · rw [bytestostringbps_length_large output (by omega) (by omega)]
      have hrest := restPart_lt (rateWord count)
      generalize wholePart (rateWord count) = i, restPart (rateWord count) = r at *
      -- the number of digits of the two parts, one bound for each width that matters
      have hi1 : (Nat.toDigits 10 i).length ≤ 1 ↔ i < 10 := length_toDigits_le (by decide)
      have hi2 : (Nat.toDigits 10 i).length ≤ 2 ↔ i < 100 := length_toDigits_le (by decide)
      have hi3 : (Nat.toDigits 10 i).length ≤ 3 ↔ i < 1000 := length_toDigits_le (by decide)
      have hr1 : (Nat.toDigits 10 (r / 10)).length ≤ 1 ↔ r / 10 < 10 :=
        length_toDigits_le (by decide)
      have hr2 : (Nat.toDigits 10 (r / 10)).length ≤ 2 ↔ r / 10 < 100 :=
        length_toDigits_le (by decide)
      have hr3 : (Nat.toDigits 10 (r / 10)).length ≤ 3 ↔ r / 10 < 1000 :=
        length_toDigits_le (by decide)
      have hi0 : 0 < (Nat.toDigits 10 i).length := Nat.length_toDigits_pos
      have hr0 : 0 < (Nat.toDigits 10 (r / 10)).length := Nat.length_toDigits_pos
      omega

/-- `1023.101 Kbps` takes 14 bytes with its NUL, and the total `1.10 Kbps` takes 10. -/
theorem bytestostringbps_outgrows :
    bytestostringbps [] 131071 = ['1', '0', '2', '3', '.', '1', '0', '1', ' ', 'K', 'b', 'p', 's'] ∧
      ¬ (bytestostringbps [] 131071).length + 1 ≤ 11 ∧
      bytestostringbps [] 141 = ['1', '.', '1', '0', ' ', 'K', 'b', 'p', 's'] ∧
      ¬ (bytestostringbps [] 141).length + 1 ≤ 9 := by
  decide

/-! ## The rate that a text denotes -/

structure Rate where
  number : ℚ
  unit : RateUnit

def Rate.value (r : Rate) : ℚ := r.number * r.unit.size

def readUnit (s : List Char) : Option RateUnit :=
  [RateUnit.bps, .kbps, .mbps, .gbps].find? (·.text = s)

/-- A number without a sign, with or without a fraction, and its unit. -/
def readNumber (s : List Char) : Option Rate :=
  let whole := s.takeWhile Char.isDigit
  match s.dropWhile Char.isDigit with
  | '.' :: s =>
    let fraction := s.takeWhile Char.isDigit
    (readUnit (s.dropWhile Char.isDigit)).map fun unit =>
      { number := Nat.ofDigitChars 10 whole 0 + Nat.ofDigitChars 10 fraction 0 / 10 ^
      fraction.length, unit }
  | s => (readUnit s).map fun unit => { number := Nat.ofDigitChars 10 whole 0, unit }

def readRate : List Char → Option Rate
  | '-' :: s => (readNumber s).map fun r => { r with number := -r.number }
  | s => readNumber s

theorem readUnit_text (unit : RateUnit) : readUnit unit.text = some unit := by
  cases unit <;> rfl

theorem takeWhile_digits (n : Nat) {c : Char} (s : List Char) (hc : c.isDigit = false) :
    (Nat.toDigits 10 n ++ c :: s).takeWhile Char.isDigit = Nat.toDigits 10 n := by
  rw [List.takeWhile_append_of_pos fun d hd => Nat.isDigit_of_mem_toDigits (by decide)
    (by decide) hd, List.takeWhile_cons_of_neg (by simp [hc]), List.append_nil]

theorem dropWhile_digits (n : Nat) {c : Char} (s : List Char) (hc : c.isDigit = false) :
    (Nat.toDigits 10 n ++ c :: s).dropWhile Char.isDigit = c :: s := by
  rw [List.dropWhile_append_of_pos fun d hd => Nat.isDigit_of_mem_toDigits (by decide)
    (by decide) hd, List.dropWhile_cons_of_neg (by simp [hc])]

theorem RateUnit.text_eq (unit : RateUnit) : ∃ s, unit.text = ' ' :: s := by
  cases unit <;> exact ⟨_, rfl⟩

theorem readNumber_whole (n : Nat) (unit : RateUnit) :
    readNumber (Nat.toDigits 10 n ++ unit.text) = some { number := n, unit } := by
  have hu := readUnit_text unit
  obtain ⟨s, hs⟩ := unit.text_eq
  rw [hs] at hu ⊢
  simp [readNumber, takeWhile_digits n s (c := ' ') rfl, dropWhile_digits n s (c := ' ') rfl, hu]

theorem readNumber_fraction (n d : Nat) (unit : RateUnit) :
    readNumber (Nat.toDigits 10 n ++ '.' :: Nat.toDigits 10 d ++ unit.text) =
      some { number := n + d / 10 ^ (Nat.toDigits 10 d).length, unit } := by
  have hu := readUnit_text unit
  obtain ⟨s, hs⟩ := unit.text_eq
  rw [hs] at hu ⊢
  rw [List.append_assoc, List.cons_append]
  simp [readNumber, takeWhile_digits n _ (c := '.') rfl, dropWhile_digits n _ (c := '.') rfl,
    takeWhile_digits d s (c := ' ') rfl, dropWhile_digits d s (c := ' ') rfl, hu]

theorem readRate_digits (n : Nat) (s : List Char) :
    readRate (Nat.toDigits 10 n ++ s) = readNumber (Nat.toDigits 10 n ++ s) := by
  obtain ⟨c, l, hl⟩ := List.exists_cons_of_length_pos (Nat.length_toDigits_pos (b := 10) (n := n))
  have hc : c.isDigit = true :=
    Nat.isDigit_of_mem_toDigits (b := 10) (n := n) (by decide) (by decide) (hl ▸ List.mem_cons_self)
  rw [hl, List.cons_append]
  unfold readRate
  split
  · next s' hs => simp_all
  · rfl

/-- The rate differs from the bits of so many bytes by less than a hundredth of its unit. -/
def Rate.Accurate (r : Rate) (count : UInt32) : Prop :=
  |r.value - 8 * count.toNat| < r.unit.size / 100

/-- The counts whose rate is printed as it is. The product must not overflow. A tenth of the rest is
read as hundredths when it has two digits, and as nothing when it is zero; each such tenth is `10 /
1024` of the unit, so that `24 / 1024` of a hundredth are read too much, less what the division by
ten drops. -/
def Faithful (count : UInt32) : Prop :=
  let n := 8 * count.toNat
  let below := (unitOf n).below
  n < 2 ^ 31 ∧ (n < 1024 ∨ restPart n < 10 ∨ (100 ≤ restPart n ∧ restPart n < 1000 ∧
    24 * (restPart n / 10) * below < 1024 * below + 100 * (n % (unitOf n).size % (10 * below))))

/-- What is printed of so many bits when the fraction is read as hundredths. -/
def printedRate (n : Nat) : ℚ :=
  if n < 1024 then n else (wholePart n + (restPart n / 10 : Nat) / 100) * (unitOf n).size

theorem bits_eq {n : Nat} (h : 1024 ≤ n) :
    n = wholePart n * (unitOf n).size + 10 * (restPart n / 10 * (unitOf n).below) +
        n % (unitOf n).size % (10 * (unitOf n).below) ∧
      n % (unitOf n).size % (10 * (unitOf n).below) < 10 * (unitOf n).below := by
  obtain ⟨hsize, hpos, -⟩ := unitOf_size h
  have hrest : restPart n / 10 = n % (unitOf n).size / (10 * (unitOf n).below) := by
    rw [restPart, hsize, Nat.mul_comm 10, ← Nat.div_div_eq_div_mul, Nat.mul_comm 1024,
      Nat.mod_mul_right_div_self]
  refine ⟨?_, Nat.mod_lt _ (by omega)⟩
  rw [hrest, wholePart]
  have h1 := Nat.div_add_mod' n (unitOf n).size
  have h2 := Nat.div_add_mod' (n % (unitOf n).size) (10 * (unitOf n).below)
  rw [Nat.mul_left_comm] at h2
  omega

theorem width_eq (d : Nat) (h : d < 1000) :
    (Nat.toDigits 10 d).length = if d < 10 then 1 else if d < 100 then 2 else 3 := by
  have h1 : (Nat.toDigits 10 d).length ≤ 1 ↔ d < 10 := length_toDigits_le (by decide)
  have h2 : (Nat.toDigits 10 d).length ≤ 2 ↔ d < 100 := length_toDigits_le (by decide)
  have h3 : (Nat.toDigits 10 d).length ≤ 3 ↔ d < 1000 := length_toDigits_le (by decide)
  have h0 : 0 < (Nat.toDigits 10 d).length := Nat.length_toDigits_pos
  split_ifs <;> omega

/-- When the fraction `d` that is printed is near enough to the rest `r` it is a tenth of; `q` is
what the division by ten drops. -/
theorem fraction_accurate_iff {d r below q : Nat} (hd : d = r / 10) (hr : r < 1024) (hb : 0 < below)
    (hq : q < 10 * below) :
    |(d : ℚ) / 10 ^ (Nat.toDigits 10 d).length * (1024 * below : Nat) -
      (10 * (d * below) + q : Nat)| < (1024 * below : Nat) / 100 ↔
      r < 10 ∨ (100 ≤ r ∧ r < 1000 ∧ 24 * d * below < 1024 * below + 100 * q) := by
  have hbQ : (0 : ℚ) < below := by exact_mod_cast hb
  have hqQ : (q : ℚ) < 10 * below := by exact_mod_cast hq
  have hq0 : (0 : ℚ) ≤ q := Nat.cast_nonneg q
  rw [width_eq d (by omega), abs_lt]
  push_cast
  split_ifs with h1 h2
  · by_cases h0 : d = 0
    · have : r < 10 := by omega
      simp only [h0, this, true_or, iff_true, Nat.cast_zero]
      constructor <;> linarith
    · have hlo : (below : ℚ) ≤ d * below := by exact_mod_cast Nat.le_mul_of_pos_left _ (by omega)
      have : ¬ (r < 10 ∨ (100 ≤ r ∧ r < 1000 ∧ 24 * d * below < 1024 * below + 100 * q)) := by omega
      simp only [this, iff_false, not_and]
      intro _
      linarith
  · have hlo : (10 : ℚ) * below ≤
      d * below := by exact_mod_cast Nat.mul_le_mul_right _ (by omega : 10 ≤ d)
    have hcond : (r < 10 ∨ (100 ≤ r ∧ r < 1000 ∧ 24 * d * below < 1024 * below + 100 * q)) ↔
        (24 : ℚ) * (d * below) < 1024 * below + 100 * q := by
      have : 24 * d * below < 1024 * below + 100 * q ↔
          (24 : ℚ) * (d * below) < 1024 * below + 100 * q := by
        rw [← mul_assoc]
        exact_mod_cast Iff.rfl
      rw [← this]
      omega
    rw [hcond]
    constructor
    · rintro ⟨-, h⟩
      linarith
    · intro h
      constructor <;> linarith
  · have hlo : (100 : ℚ) * below ≤
      d * below := by exact_mod_cast Nat.mul_le_mul_right _ (by omega : 100 ≤ d)
    have : ¬ (r < 10 ∨ (100 ≤ r ∧ r < 1000 ∧ 24 * d * below < 1024 * below + 100 * q)) := by omega
    simp only [this, iff_false, not_and]
    intro _
    linarith

section

variable (output : List Char) {count : UInt32}

theorem readRate_negative (h : 2 ^ 31 ≤ rateWord count) :
    readRate (bytestostringbps output count) =
      some { number := -((2 ^ 32 - rateWord count : Nat) : ℚ), unit := .bps } := by
  rw [bytestostringbps_negative output h, readRate, readNumber_whole]
  rfl

theorem readRate_small (h : rateWord count < 1024) :
    readRate (bytestostringbps output count) = some { number := rateWord count, unit := .bps } := by
  rw [bytestostringbps_small output h, readRate_digits, readNumber_whole]

theorem readRate_large (h : 1024 ≤ rateWord count) (hlt : rateWord count < 2 ^ 31) :
    readRate (bytestostringbps output count) =
      some { number := wholePart (rateWord count) + (restPart (rateWord count) / 10 : Nat) /
               10 ^ (Nat.toDigits 10 (restPart (rateWord count) / 10)).length
             unit := unitOf (rateWord count) } := by
  rw [bytestostringbps_large output h hlt, List.append_assoc, readRate_digits, ← List.append_assoc,
    readNumber_fraction]

end

theorem readRate_bytestostringbps (output : List Char) (count : UInt32) :
    ∃ r, readRate (bytestostringbps output count) = some r := by
  by_cases hn : 2 ^ 31 ≤ rateWord count
  · exact ⟨_, readRate_negative output hn⟩
  · by_cases hs : rateWord count < 1024
    · exact ⟨_, readRate_small output hs⟩
    · exact ⟨_, readRate_large output (by omega) (by omega)⟩

/-- The rate is at most one unit above the bits. -/
theorem large_value_le (n d : Nat) :
    ((wholePart n + d / 10 ^ (Nat.toDigits 10 d).length) * (unitOf n).size : ℚ) ≤ n +
    (unitOf n).size := by
  have hd : (d : ℚ) / 10 ^ (Nat.toDigits 10 d).length ≤ 1 := by
    rw [div_le_one (by positivity)]
    exact_mod_cast ((length_toDigits_le Nat.length_toDigits_pos).1 le_rfl).le
  have hwhole : (wholePart n * (unitOf n).size : ℚ) ≤ n := by
    exact_mod_cast Nat.div_mul_le_self n (unitOf n).size
  rw [add_mul]
  exact add_le_add hwhole (mul_le_of_le_one_left (Nat.cast_nonneg _) hd)

/-- Once the product overflows, the rate is about another number of bits altogether. -/
theorem not_accurate_of_overflow {output : List Char} {count : UInt32} {r : Rate}
    (h : 2 ^ 31 ≤ 8 * count.toNat) (hr : readRate (bytestostringbps output count) = some r) :
    ¬ r.Accurate count := by
  have hN : (2 : ℚ) ^ 31 ≤ 8 * count.toNat := by exact_mod_cast h
  unfold Rate.Accurate
  rw [abs_lt, not_and_or, not_lt]
  left
  by_cases hn : 2 ^ 31 ≤ rateWord count
  · obtain rfl : _ = r := Option.some.inj ((readRate_negative output hn).symm.trans hr)
    have h0 : (0 : ℚ) ≤ (2 ^ 32 - rateWord count : Nat) := Nat.cast_nonneg _
    simp only [Rate.value, RateUnit.size]
    norm_num
    linarith
  · have hwrap : 2 ^ 32 + rateWord count ≤ 8 * count.toNat := by
      unfold rateWord at hn ⊢
      omega
    have hwrapQ : (2 : ℚ) ^ 32 + rateWord count ≤ 8 * count.toNat := by exact_mod_cast hwrap
    by_cases hs : rateWord count < 1024
    · obtain rfl : _ = r := Option.some.inj ((readRate_small output hs).symm.trans hr)
      simp only [Rate.value, RateUnit.size]
      norm_num
      linarith
    · obtain rfl : _ = r :=
        Option.some.inj ((readRate_large output (by omega) (by omega)).symm.trans hr)
      have hle : (unitOf (rateWord count)).size < 2 ^ 31 := by
        have := (unitOf_size (n := rateWord count) (by omega)).2.2
        omega
      have hleQ : ((unitOf (rateWord count)).size : ℚ) < 2 ^ 31 := by exact_mod_cast hle
      have := large_value_le (rateWord count) (restPart (rateWord count) / 10)
      simp only [Rate.value]
      linarith

theorem large_value_sub {n : Nat} (h : 1024 ≤ n) (d : ℚ) :
    (wholePart n + d) * (unitOf n).size - n =
      d * (unitOf n).size - (10 * (restPart n / 10 * (unitOf n).below) +
        n % (unitOf n).size % (10 * (unitOf n).below) : Nat) := by
  have hbits :
    (n : ℚ) = wholePart n * (unitOf n).size + (10 * (restPart n / 10 * (unitOf n).below) +
      n % (unitOf n).size % (10 * (unitOf n).below) : Nat) := by
    exact_mod_cast (bits_eq h).1.trans (Nat.add_assoc ..)
  rw [add_mul]
  linarith

theorem rateWord_eq {count : UInt32} (h : 8 * count.toNat < 2 ^ 31) :
    rateWord count = 8 * count.toNat :=
  Nat.mod_eq_of_lt (by omega)

theorem accurate_iff_faithful {output : List Char} {count : UInt32} {r : Rate}
    (hr : readRate (bytestostringbps output count) = some r) : r.Accurate count ↔
    Faithful count := by
  by_cases hlt : 8 * count.toNat < 2 ^ 31
  · have hw := rateWord_eq hlt
    have hbits : (8 : ℚ) * count.toNat = (8 * count.toNat : Nat) := by
      push_cast
      ring
    by_cases hs : 8 * count.toNat < 1024
    · obtain rfl : _ = r := Option.some.inj ((readRate_small output (by omega)).symm.trans hr)
      simp only [Faithful, Rate.Accurate, Rate.value,
        RateUnit.size, hw, hlt, hs, hbits, true_or, true_and, iff_true]
      norm_num
    · obtain rfl : _ = r :=
        Option.some.inj ((readRate_large output (by omega) (by omega)).symm.trans hr)
      obtain ⟨hsize, hpos, -⟩ := unitOf_size (n := 8 * count.toNat) (by omega)
      simp only [Faithful, Rate.Accurate, Rate.value, hw, hlt, hs, true_and, false_or, hbits]
      rw [large_value_sub (by omega),
        ← fraction_accurate_iff rfl (restPart_lt _) hpos (bits_eq (by omega)).2, ← hsize]
  · have := not_accurate_of_overflow (by omega) hr
    simp only [Faithful, hlt, this, false_and]

theorem value_of_faithful {output : List Char} {count : UInt32} {r : Rate} (h : Faithful count)
    (hr : readRate (bytestostringbps output count) = some r) :
    r.value = printedRate (8 * count.toNat) := by
  obtain ⟨hlt, hcond⟩ := h
  have hw := rateWord_eq hlt
  unfold printedRate
  by_cases hs : 8 * count.toNat < 1024
  · obtain rfl : _ = r := Option.some.inj ((readRate_small output (by omega)).symm.trans hr)
    simp [Rate.value, RateUnit.size, hw, hs]
  · obtain rfl : _ = r :=
      Option.some.inj ((readRate_large output (by omega) (by omega)).symm.trans hr)
    simp only [Rate.value, hw, hs, ite_false]
    rw [width_eq _ (by have := restPart_lt (8 * count.toNat); omega)]
    generalize restPart (8 * count.toNat) = t at *
    split_ifs with h1 h2
    · have : t / 10 = 0 := by omega
      simp [this]
    · norm_num
    · omega

/-! ## Order -/

theorem unitOf_eq_or_le {n m : Nat} (h : n ≤ m) (hn : 1024 ≤ n) (hm : m < 2 ^ 31) :
    unitOf n = unitOf m ∨
      (n < 1024 * (unitOf n).size ∧ 1024 * (unitOf n).size ≤ (unitOf m).size) := by
  unfold unitOf
  split_ifs <;> simp [RateUnit.size] <;> omega

/-- The two parts together are the bits counted in the unit below. -/
theorem div_below_eq {n : Nat} (h : 1024 ≤ n) :
    n / (unitOf n).below = 1024 * wholePart n + restPart n := by
  obtain ⟨hsize, -, -⟩ := unitOf_size h
  rw [wholePart, restPart, hsize, Nat.mul_comm 1024 (unitOf n).below, ← Nat.div_div_eq_div_mul,
    Nat.div_add_mod]

theorem size_le_printedRate {n : Nat} (h : 1024 ≤ n) : ((unitOf n).size : ℚ) ≤ printedRate n := by
  obtain ⟨hsize, hpos, hle⟩ := unitOf_size h
  have hone : (1 : ℚ) ≤ wholePart n := by
    exact_mod_cast (Nat.one_le_div_iff (by omega)).2 hle
  rw [printedRate, if_neg (by omega)]
  apply le_mul_of_one_le_left (Nat.cast_nonneg _)
  have : (0 : ℚ) ≤ (restPart n / 10 : Nat) / 100 := by positivity
  linarith

theorem printedRate_le {n : Nat} (h : 1024 ≤ n) (hrest : restPart n < 1000) {k : Nat}
    (hk : n < k * (unitOf n).size) : printedRate n ≤ (k * (unitOf n).size : Nat) := by
  have hwhole : (wholePart n : ℚ) + 1 ≤ k := by
    exact_mod_cast (Nat.div_lt_iff_lt_mul (by have := unitOf_size h; omega)).2 hk
  have hd : ((restPart n / 10 : Nat) : ℚ) ≤
    100 := by exact_mod_cast (by omega : restPart n / 10 ≤ 100)
  rw [printedRate, if_neg (by omega), Nat.cast_mul]
  apply mul_le_mul_of_nonneg_right _ (Nat.cast_nonneg _)
  linarith

theorem printedRate_mono {n m : Nat} (h : n ≤ m) (hn : n < 1024 ∨ restPart n < 1000)
    (hm : m < 2 ^ 31) :
    printedRate n ≤ printedRate m := by
  by_cases hm' : m < 1024
  · rw [printedRate, printedRate, if_pos hm', if_pos (by omega)]
    exact_mod_cast h
  have hsize := size_le_printedRate (n := m) (by omega)
  by_cases hn' : n < 1024
  · have hle : (n : ℚ) ≤ (unitOf m).size := by
      obtain ⟨hsz, hpos, -⟩ := unitOf_size (n := m) (by omega)
      exact_mod_cast (by omega : n ≤ (unitOf m).size)
    rw [printedRate, if_pos hn']
    exact hle.trans hsize
  have hrest : restPart n < 1000 := by omega
  obtain heq | ⟨hlt, hunit⟩ := unitOf_eq_or_le h (by omega) hm
  · -- in one unit the two parts are ordered as the bits are, and the fraction stays below one
    have hdiv : n / (unitOf n).below ≤ m / (unitOf m).below := heq ▸ Nat.div_le_div_right h
    rw [div_below_eq (by omega), div_below_eq (by omega)] at hdiv
    have hr := restPart_lt m
    have hparts : 100 * wholePart n + restPart n / 10 ≤
      100 * wholePart m + restPart m / 10 := by omega
    have hpartsQ : (100 : ℚ) * wholePart n + (restPart n / 10 : Nat) ≤
        100 * wholePart m + (restPart m / 10 : Nat) := by exact_mod_cast hparts
    rw [printedRate, printedRate, if_neg hn', if_neg hm', heq]
    apply mul_le_mul_of_nonneg_right _ (Nat.cast_nonneg _)
    linarith
  · calc printedRate n ≤ (1024 * (unitOf n).size : Nat) := printedRate_le (by omega) hrest hlt
      _ ≤ (unitOf m).size := by exact_mod_cast hunit
      _ ≤ printedRate m := hsize

theorem Faithful.restPart_lt {count : UInt32} (h : Faithful count) :
    8 * count.toNat < 1024 ∨ restPart (8 * count.toNat) < 1000 := by
  obtain ⟨-, h⟩ := h
  omega

/-- For each pair of counts, the printed rates are in order and both accurate exactly when both
counts are printed faithfully. -/
theorem bytestostringbps_monotone_iff (output : List Char) {count₁ count₂ : UInt32}
    (h : count₁ ≤ count₂) :
    (∃ r₁ r₂, readRate (bytestostringbps output count₁) = some r₁ ∧
        readRate (bytestostringbps output count₂) = some r₂ ∧
        r₁.value ≤ r₂.value ∧ r₁.Accurate count₁ ∧ r₂.Accurate count₂) ↔
      Faithful count₁ ∧ Faithful count₂ := by
  constructor
  · rintro ⟨r₁, r₂, h₁, h₂, -, ha₁, ha₂⟩
    exact ⟨(accurate_iff_faithful h₁).1 ha₁, (accurate_iff_faithful h₂).1 ha₂⟩
  · rintro ⟨hf₁, hf₂⟩
    obtain ⟨r₁, h₁⟩ := readRate_bytestostringbps output count₁
    obtain ⟨r₂, h₂⟩ := readRate_bytestostringbps output count₂
    refine ⟨r₁, r₂, h₁, h₂, ?_, (accurate_iff_faithful h₁).2 hf₁, (accurate_iff_faithful h₂).2 hf₂⟩
    rw [value_of_faithful hf₁ h₁, value_of_faithful hf₂ h₂]
    exact printedRate_mono (Nat.mul_le_mul_left 8 h) hf₁.restPart_lt hf₂.1

/-- `1.25 Kbps` for 160 bytes and `2.35 Kbps` for 300 are in order. -/
theorem bytestostringbps_monotone_pair :
    ∃ r₁ r₂, readRate (bytestostringbps [] 160) = some r₁ ∧
      readRate (bytestostringbps [] 300) = some r₂ ∧
      r₁.value ≤ r₂.value ∧ r₁.Accurate 160 ∧ r₂.Accurate 300 :=
  (bytestostringbps_monotone_iff [] (by decide)).2
    ⟨by unfold Faithful; decide, by unfold Faithful; decide⟩

/-- 140 bytes are printed as `1.9 Kbps` and 141 as `1.10 Kbps`. -/
theorem bytestostringbps_decreases :
    bytestostringbps [] 140 = ['1', '.', '9', ' ', 'K', 'b', 'p', 's'] ∧
      bytestostringbps [] 141 = ['1', '.', '1', '0', ' ', 'K', 'b', 'p', 's'] ∧
      ∃ r₁ r₂, readRate (bytestostringbps [] 140) = some r₁ ∧
        readRate (bytestostringbps [] 141) = some r₂ ∧
        ¬ r₁.value ≤ r₂.value ∧ ¬ r₁.Accurate 140 := by
  have h₁ : readRate (bytestostringbps [] 140) = some { number := 1 + 9 / 10 ^ 1, unit := .kbps } :=
    readNumber_fraction 1 9 .kbps
  have h₂ : readRate (bytestostringbps [] 141) =
      some { number := 1 + 10 / 10 ^ 2, unit := .kbps } :=
    readNumber_fraction 1 10 .kbps
  refine ⟨by decide, by decide, _, _, h₁, h₂, ?_, ?_⟩
  · norm_num [Rate.value, RateUnit.size]
  · rw [accurate_iff_faithful h₁]
    unfold Faithful
    decide

end Opennop
