import Opennop.Lib.Exec
import Opennop.Lib.OnesComplement
import Opennop.Packet.Header

/-!
# Checksums (`opennopd/csum.c`)

The sums are those of the source, word by word in network byte order. `checksum` writes the two
checksum fields and nothing else, and what it writes verifies: the one's complement sums that a
receiver forms are all ones.
-/

namespace Opennop

open Mem

/-- The sum of the `n` words from `k` on. -/
def sumWords (p : Mem) (k n : Nat) : Nat := ((List.range n).map fun i => p.be16 (k + 2 * i)).sum

/-- `while (sum >> 16) sum = (sum & 0xFFFF) + (sum >> 16)`; three passes are enough below `2 ^
32`. -/
def addCarries : Nat → Nat → Nat
  | 0, sum => sum
  | n + 1, sum => if sum / 65536 = 0 then sum else addCarries n (sum % 65536 + sum / 65536)

/-- The complement of a sum as an `unsigned short`. -/
def complement (sum : Nat) : Nat := 65535 - addCarries 4 sum % 65536

/-- `tcp_sum_calc` of the segment at `tcph`, in host order. -/
def tcpSumCalc (p : Mem) (lenTcp tcph : Nat) : Nat :=
  let pseudo := p.be16 12 + p.be16 14 + p.be16 16 + p.be16 18 + lenTcp + 6
  let odd := if lenTcp % 2 = 1 then (p (tcph + 2 * (lenTcp / 2))).toNat * 256 else 0
  complement (pseudo + sumWords p tcph (lenTcp / 2) + odd)

/-- `ip_sum_calc`, in host order -/
def ipSumCalc (p : Mem) (lenIpHeader : Nat) : Nat := complement (sumWords p 0 (lenIpHeader / 2))

/-- `checksum` -/
def checksum (p : Mem) : Mem :=
  if p.protocol = ipprotoTcp then
    let tcph := p.tcpOff
    let tcplen := (((p.totLen : Int) - 4 * p.ihl) % 65536).toNat
    let len := 4 * p.ihl
    let p := p.setBe16 (tcph + 16) 0
    let p := p.setBe16 (tcph + 16) (tcpSumCalc p tcplen tcph)
    let p := p.setBe16 10 0
    p.setBe16 10 (ipSumCalc p len)
  else p

/-- `checksum` writes the two checksum fields only. -/
theorem checksum_out (p : Mem) {i : Nat} (hip : i < 10 ∨ 12 ≤ i)
    (htcp : i < p.tcpOff + 16 ∨ p.tcpOff + 18 ≤ i) : checksum p i = p i := by
  unfold checksum
  split
  · dsimp only
    rw [setBe16_out _ _ (by omega), setBe16_out _ _ (by omega), setBe16_out _ _ (by omega),
      setBe16_out _ _ (by omega)]
  · rfl

section Fields

variable {p : Mem} (hi : 5 ≤ p.ihl)
include hi

theorem checksum_ip {i : Nat} (h : i < 10 ∨ 12 ≤ i) (h' : i < 20) : checksum p i = p i :=
  checksum_out p h (by unfold tcpOff; omega)

theorem checksum_tcp {i : Nat} (h : i < 16 ∨ 18 ≤ i) :
    checksum p (p.tcpOff + i) = p (p.tcpOff + i) :=
  checksum_out p (by unfold tcpOff; omega) (by omega)

theorem ihl_checksum : (checksum p).ihl = p.ihl := by
  unfold ihl
  rw [checksum_ip hi (by omega) (by omega)]

theorem tcpOff_checksum : (checksum p).tcpOff = p.tcpOff := by
  unfold tcpOff
  rw [ihl_checksum hi]

theorem doff_checksum : (checksum p).doff = p.doff := by
  unfold doff
  rw [tcpOff_checksum hi, checksum_tcp hi (by omega)]

theorem totLen_checksum : (checksum p).totLen = p.totLen :=
  be16_congr fun i h₁ h₂ => checksum_ip hi (by omega) (by omega)

end Fields

/-! ## Adding the carries -/

/-- One pass of `while (sum >> 16)`. -/
def carryPass (sum : Nat) : Exec (Pass Nat Nat) :=
  if sum / 65536 = 0 then .ok (.done sum) else .ok (.again (sum % 65536 + sum / 65536))

theorem loop_carryPass_ends (sum : Nat) : ∃ n r, loop carryPass n sum = .ok r := by
  have hpass : ∀ s, True → (∃ s', carryPass s = .ok (.again s') ∧ True ∧ s' < s) ∨
      ∃ r, carryPass s = .ok (.done r) ∧ True := by
    intro s _
    unfold carryPass
    by_cases h0 : s / 65536 = 0
    · exact .inr ⟨s, if_pos h0, trivial⟩
    · exact .inl ⟨_, if_neg h0, trivial, by omega⟩
  obtain ⟨r, hr, -⟩ := loop_total id hpass trivial (Nat.lt_succ_self sum)
  exact ⟨sum + 1, r, hr⟩

theorem loop_carryPass {n sum : Nat} (h : addCarries n sum < 65536) :
    loop carryPass (n + 1) sum = .ok (addCarries n sum) := by
  induction n generalizing sum with
  | zero =>
    change sum < 65536 at h
    exact loop_done (if_pos (by omega))
  | succ n ih =>
    unfold addCarries at h ⊢
    by_cases h0 : sum / 65536 = 0
    · rw [if_pos h0]
      exact loop_done (if_pos h0)
    · rw [if_neg h0] at h ⊢
      have hpass : carryPass sum = .ok (.again (sum % 65536 + sum / 65536)) := if_neg h0
      rw [loop_again hpass]
      exact ih h

theorem addCarries_lt {sum : Nat} (h : sum < 4294967296) : addCarries 4 sum < 65536 := by
  simp only [addCarries]
  repeat' split
  all_goals omega

theorem addCarries_modEq (n sum : Nat) : addCarries n sum ≡ sum [MOD 65535] := by
  induction n generalizing sum with
  | zero => rfl
  | succ n ih =>
    unfold addCarries
    split
    · rfl
    · refine (ih _).trans ((Nat.modEq_iff_dvd' (by omega)).2 ⟨sum / 65536, by omega⟩)

theorem dvd_add_complement {sum : Nat} (h : sum < 4294967296) :
    complement sum ≤ 65535 ∧ 0 < sum + complement sum ∧ 65535 ∣ sum + complement sum := by
  have hlt := addCarries_lt h
  have hmod := addCarries_modEq 4 sum
  unfold complement
  rw [Nat.mod_eq_of_lt hlt]
  refine ⟨by omega, ?_, ?_⟩
  · rcases Nat.eq_zero_or_pos sum with rfl | hpos
    · decide
    · omega
  · refine Nat.modEq_zero_iff_dvd.1 ((hmod.symm.add_right _).trans ?_)
    rw [Nat.add_sub_cancel' (by omega)]
    exact Nat.modEq_zero_iff_dvd.2 (Nat.dvd_refl _)

/-! ## Words -/

/-- The words of a byte string in network order; an odd one is padded with a zero byte. -/
def words : List UInt8 → List Nat
  | [] => []
  | [a] => [a.toNat * 256]
  | a :: b :: l => (a.toNat * 256 + b.toNat) :: words l

theorem words_le (l : List UInt8) : ∀ w ∈ words l, w ≤ 65535 := by
  induction l using words.induct with
  | case1 => exact fun w hw => nomatch hw
  | case2 a =>
    intro w hw
    have := a.toNat_lt
    rw [words, List.mem_singleton] at hw
    omega
  | case3 a b l ih =>
    intro w hw
    have := a.toNat_lt
    have := b.toNat_lt
    rw [words, List.mem_cons] at hw
    rcases hw with rfl | hw
    · omega
    · exact ih w hw

theorem words_append {l : List UInt8} (h : l.length % 2 = 0) (l' : List UInt8) :
    words (l ++ l') = words l ++ words l' := by
  induction l using words.induct with
  | case1 => rfl
  | case2 a => cases h
  | case3 a b l ih =>
    rw [List.length_cons, List.length_cons] at h
    simp only [List.cons_append, words, ih (by omega)]

@[simp] theorem sumWords_zero (p : Mem) (k : Nat) : sumWords p k 0 = 0 := by
  simp [sumWords]

theorem sumWords_succ (p : Mem) (k n : Nat) :
    sumWords p k (n + 1) = p.be16 k + sumWords p (k + 2) n := by
  unfold sumWords
  rw [List.range_succ_eq_map, List.map_cons, List.sum_cons, List.map_map]
  refine congrArg₂ _ rfl (congrArg List.sum (List.map_congr_left fun i _ => ?_))
  exact congrArg p.be16 (by rw [Nat.mul_succ]; omega)

theorem sum_words_read (p : Mem) (k n : Nat) : (words (p.read k n)).sum =
    sumWords p k (n / 2) + if n % 2 = 1 then (p (k + 2 * (n / 2))).toNat * 256 else 0 := by
  induction n using Nat.twoStepInduction generalizing k with
  | zero => rfl
  | one => simp [read_succ, words, sumWords]
  | more n ih _ =>
    have hdiv : (n + 2) / 2 = n / 2 + 1 := Nat.add_div_right n (by decide)
    have hodd : k + 2 * (n / 2 + 1) = k + 2 + 2 * (n / 2) := by omega
    have hword : p.be16 k = (p k).toNat * 256 + (p (k + 1)).toNat := rfl
    rw [read_succ, read_succ, words, List.sum_cons, ih, hdiv, hodd, sumWords_succ, hword,
      Nat.add_mod_right, Nat.add_assoc _ (sumWords p (k + 2) (n / 2))]

theorem sumWords_congr {p p' : Mem} {k n : Nat} (h : ∀ i, k ≤ i → i < k + 2 * n → p i = p' i) :
    sumWords p k n = sumWords p' k n := by
  induction n generalizing k with
  | zero => rw [sumWords_zero, sumWords_zero]
  | succ n ih =>
    have hword : p.be16 k = p'.be16 k := be16_congr fun i h₁ h₂ => h i h₁ (by omega)
    have hrest := ih (k := k + 2) fun i h₁ h₂ => h i (by omega) (by omega)
    rw [sumWords_succ, sumWords_succ, hword, hrest]

theorem sumWords_setBe16 (p : Mem) (v : Nat) {k j n : Nat} (hj : j < n)
    (h0 : p.be16 (k + 2 * j) = 0) :
    sumWords (p.setBe16 (k + 2 * j) v) k n = sumWords p k n + v % 65536 := by
  induction n generalizing k j with
  | zero => cases hj
  | succ n ih =>
    rw [sumWords_succ, sumWords_succ]
    cases j with
    | zero =>
      rw [Nat.mul_zero, Nat.add_zero] at h0 ⊢
      have hrest : sumWords (p.setBe16 k v) (k + 2) n = sumWords p (k + 2) n :=
        sumWords_congr fun i h₁ _ => setBe16_out p v (by omega)
      rw [be16_setBe16, h0, hrest]
      omega
    | succ j =>
      rw [show k + 2 * (j + 1) = k + 2 + 2 * j by omega] at h0 ⊢
      have hword : (p.setBe16 (k + 2 + 2 * j) v).be16 k = p.be16 k :=
        be16_congr fun i h₁ h₂ => setBe16_out p v (by omega)
      rw [ih (by omega) h0, hword, Nat.add_assoc]

theorem sumWords_le (p : Mem) (k n : Nat) : sumWords p k n ≤ 65535 * n := by
  induction n generalizing k with
  | zero => simp
  | succ n ih =>
    have := be16_lt p k
    have := ih (k + 2)
    rw [sumWords_succ]
    omega

/-! ## What a receiver checks -/

/-- The pseudo header: the addresses, the protocol and the length of the TCP segment. -/
def Mem.pseudoHeader (p : Mem) : List UInt8 :=
  p.read 12 8 ++ [0, p.protocol, UInt8.ofNat ((p.totLen - 4 * p.ihl) / 256),
    UInt8.ofNat (p.totLen - 4 * p.ihl)]

def Mem.tcpSegment (p : Mem) : List UInt8 := p.read p.tcpOff (p.totLen - 4 * p.ihl)

/-- The sums of RFC 1071 over the pseudo header with the TCP segment and over the IP header are all
ones. -/
structure Verifies (p : Mem) : Prop where
  tcp : onesSum 65535 (words (p.pseudoHeader ++ p.tcpSegment)) = 65535
  ip : onesSum 65535 (words (p.read 0 (4 * p.ihl))) = 65535

/-- The sum that `tcp_sum_calc` forms before it adds the carries. -/
def tcpSum (p : Mem) (lenTcp tcph : Nat) : Nat :=
  p.be16 12 + p.be16 14 + p.be16 16 + p.be16 18 + lenTcp + 6 + sumWords p tcph (lenTcp / 2) +
    if lenTcp % 2 = 1 then (p (tcph + 2 * (lenTcp / 2))).toNat * 256 else 0

theorem tcpSumCalc_eq (p : Mem) (lenTcp tcph : Nat) :
    tcpSumCalc p lenTcp tcph = complement (tcpSum p lenTcp tcph) := rfl

theorem tcpSum_lt (p : Mem) {lenTcp : Nat} (h : lenTcp < 65536) (tcph : Nat) :
    tcpSum p lenTcp tcph < 4294967296 := by
  have h12 := be16_lt p 12
  have h14 := be16_lt p 14
  have h16 := be16_lt p 16
  have h18 := be16_lt p 18
  have hwords := sumWords_le p tcph (lenTcp / 2)
  have hodd := (p (tcph + 2 * (lenTcp / 2))).toNat_lt
  unfold tcpSum
  split <;> omega

theorem ipSum_lt (p : Mem) {n : Nat} (hn : n < 16) : sumWords p 0 (2 * n) < 4294967296 := by
  have := sumWords_le p 0 (2 * n)
  omega

theorem sum_words_pseudoHeader (p : Mem) (hp : p.protocol = ipprotoTcp) :
    (words p.pseudoHeader).sum = p.be16 12 + p.be16 14 + p.be16 16 + p.be16 18 +
      (p.totLen - 4 * p.ihl) + 6 := by
  have hlen : p.totLen - 4 * p.ihl < 65536 := Nat.lt_of_le_of_lt (Nat.sub_le _ _) (be16_lt p 2)
  have hwords : (words p.pseudoHeader).sum = p.be16 12 + (p.be16 14 + (p.be16 16 + (p.be16 18 +
      (6 + ((UInt8.ofNat ((p.totLen - 4 * p.ihl) / 256)).toNat * 256 +
        (UInt8.ofNat (p.totLen - 4 * p.ihl)).toNat))))) := by
    have hproto : (0 : UInt8).toNat * 256 + ipprotoTcp.toNat = 6 := by decide
    unfold pseudoHeader
    simp only [hp, read_succ, read_zero, List.cons_append, List.nil_append, words, List.sum_cons,
      List.sum_nil, Nat.add_zero, Nat.reduceAdd, be16, hproto]
  rw [hwords, UInt8.toNat_ofNat', UInt8.toNat_ofNat']
  omega

theorem sum_words_segment (p : Mem) (hp : p.protocol = ipprotoTcp) :
    (words (p.pseudoHeader ++ p.tcpSegment)).sum = tcpSum p (p.totLen - 4 * p.ihl) p.tcpOff := by
  have heven : p.pseudoHeader.length % 2 = 0 := by
    unfold pseudoHeader
    rw [List.length_append, length_read]
    simp
  rw [words_append heven, List.sum_append, sum_words_pseudoHeader p hp, tcpSegment, sum_words_read,
    tcpSum]
  omega

theorem tcpSum_setBe16 {p p' : Mem} {lenTcp tcph v : Nat} (hlen : 20 ≤ lenTcp) (htcph : 20 ≤ tcph)
    (h0 : p.be16 (tcph + 16) = 0) (hv : v < 65536)
    (hout : ∀ i, 12 ≤ i → p' i = p.setBe16 (tcph + 16) v i) :
    tcpSum p' lenTcp tcph = tcpSum p lenTcp tcph + v := by
  have haddr : ∀ k, 12 ≤ k → k < 20 → p'.be16 k = p.be16 k := by
    intro k h₁ h₂
    refine be16_congr fun i h₃ h₄ => ?_
    rw [hout i (by omega), setBe16_out p v (by omega)]
  have hwords : sumWords p' tcph (lenTcp / 2) = sumWords p tcph (lenTcp / 2) + v := by
    rw [sumWords_congr fun i h₁ _ => hout i (by omega)]
    have hset := sumWords_setBe16 p v (k := tcph) (j := 8) (n := lenTcp / 2) (by omega) h0
    rwa [Nat.mod_eq_of_lt hv] at hset
  have hodd : p' (tcph + 2 * (lenTcp / 2)) = p (tcph + 2 * (lenTcp / 2)) := by
    rw [hout _ (by omega), setBe16_out p v (by omega)]
  unfold tcpSum
  rw [haddr 12 (by omega) (by omega), haddr 14 (by omega) (by omega),
    haddr 16 (by omega) (by omega), haddr 18 (by omega) (by omega), hwords, hodd]
  omega

theorem onesSum_complement {l : List UInt8} {sum : Nat} (hsum : sum < 4294967296)
    (h : (words l).sum = sum + complement sum) : onesSum 65535 (words l) = 65535 := by
  obtain ⟨-, hpos, hdvd⟩ := dvd_add_complement hsum
  exact onesSum_eq (words_le l) (by rwa [h]) (by rwa [h])

theorem checksum_eq {p : Mem} (hi : 5 ≤ p.ihl) (ht : 4 * p.ihl + 20 ≤ p.totLen)
    (hp : p.protocol = ipprotoTcp) :
    ∃ q q' : Mem, q.be16 (p.tcpOff + 16) = 0 ∧
      q' = q.setBe16 (p.tcpOff + 16) (complement (tcpSum q (p.totLen - 4 * p.ihl) p.tcpOff)) ∧
      checksum p = (q'.setBe16 10 0).setBe16 10 (ipSumCalc (q'.setBe16 10 0) (4 * p.ihl)) := by
  have htot := be16_lt p 2
  have hlen : (((p.totLen : Int) - 4 * p.ihl) % 65536).toNat = p.totLen - 4 * p.ihl := by
    unfold totLen at ht ⊢
    omega
  refine ⟨p.setBe16 (p.tcpOff + 16) 0, _, be16_setBe16 .., rfl, ?_⟩
  unfold checksum
  rw [if_pos hp, hlen]
  dsimp only
  rw [tcpSumCalc_eq]

section Sums

variable {p : Mem} (hi : 5 ≤ p.ihl) (ht : 4 * p.ihl + 20 ≤ p.totLen) (hp : p.protocol = ipprotoTcp)
include hi ht hp

theorem onesSum_segment_checksum :
    onesSum 65535 (words ((checksum p).pseudoHeader ++ (checksum p).tcpSegment)) = 65535 := by
  have htot := be16_lt p 2
  have hoff : 20 ≤ p.tcpOff := by
    unfold tcpOff
    omega
  have hprot : (checksum p).protocol = ipprotoTcp := (checksum_ip hi (by omega) (by omega)).trans hp
  obtain ⟨q, q', hq0, rfl, heq⟩ := checksum_eq hi ht hp
  have hlt := tcpSum_lt q (show p.totLen - 4 * p.ihl < 65536 by unfold totLen; omega) p.tcpOff
  obtain ⟨hcle, -, -⟩ := dvd_add_complement hlt
  refine onesSum_complement hlt ?_
  rw [sum_words_segment _ hprot, totLen_checksum hi, ihl_checksum hi, tcpOff_checksum hi]
  refine tcpSum_setBe16 (by omega) hoff hq0 (by omega) fun i hi' => ?_
  rw [heq, setBe16_out _ _ (by omega), setBe16_out _ _ (by omega)]

theorem onesSum_header_checksum :
    onesSum 65535 (words ((checksum p).read 0 (4 * (checksum p).ihl))) = 65535 := by
  have hihl : p.ihl < 16 := Nat.mod_lt _ (by decide)
  obtain ⟨q, q', -, -, heq⟩ := checksum_eq hi ht hp
  have hlt := ipSum_lt (q'.setBe16 10 0) hihl
  obtain ⟨hle, -, -⟩ := dvd_add_complement hlt
  have hhalf : 4 * p.ihl / 2 = 2 * p.ihl := by omega
  have h10 : (q'.setBe16 10 0).be16 (0 + 2 * 5) = 0 := be16_setBe16 q' 10 0
  have hset :=
    sumWords_setBe16 (q'.setBe16 10 0) (complement (sumWords (q'.setBe16 10 0) 0 (2 * p.ihl)))
    (show 5 < 2 * p.ihl by omega) h10
  rw [Nat.mod_eq_of_lt (Nat.lt_succ_of_le hle)] at hset
  refine onesSum_complement hlt ?_
  rw [ihl_checksum hi, sum_words_read, hhalf, if_neg (by omega), Nat.add_zero, heq,
    ipSumCalc, hhalf]
  exact hset

end Sums

/-- **Recomputed checksums verify** at the receiver, nothing but the two fields changes, and the
loops that add the carries end, with the value of four passes for the sums that occur. -/
theorem checksum_verifies (p : Mem) (hi : 5 ≤ p.ihl) (ht : 4 * p.ihl + 20 ≤ p.totLen)
    (hp : p.protocol = ipprotoTcp) :
    Verifies (checksum p) ∧
      (∀ i, i ≠ 10 → i ≠ 11 → i ≠ p.tcpOff + 16 → i ≠ p.tcpOff + 17 → checksum p i = p i) ∧
      ∀ sum, ∃ n r, loop carryPass n sum = .ok r ∧ (sum < 4294967296 → r = addCarries 4 sum) := by
  refine ⟨⟨onesSum_segment_checksum hi ht hp, onesSum_header_checksum hi ht hp⟩,
    fun i h₁ h₂ h₃ h₄ => ?_, fun sum => ?_⟩
  · exact checksum_out p (by omega) (by omega)
  · by_cases hsum : sum < 4294967296
    · exact ⟨5, _, loop_carryPass (addCarries_lt hsum), fun _ => rfl⟩
    · obtain ⟨n, r, hr⟩ := loop_carryPass_ends sum
      exact ⟨n, r, hr, fun h => absurd h hsum⟩

def oddSegment : Mem :=
  Mem.ofList [0x45, 0, 0, 41, 0, 0, 0, 0, 64, 6, 0, 0, 10, 0, 0, 1, 10, 0, 0, 2,
    0x30, 0x39, 0, 80, 0, 0, 0, 1, 0, 0, 0, 0, 0x50, 16, 0xff, 0xff, 0, 0, 0, 0, 7]

theorem checksum_verifies_oddSegment :
    oddSegment.totLen - 4 * oddSegment.ihl = 21 ∧ Verifies (checksum oddSegment) :=
  ⟨by decide, (checksum_verifies oddSegment (by decide) (by decide) rfl).1⟩

end Opennop
