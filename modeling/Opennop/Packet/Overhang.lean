import Opennop.Packet.Ending
import Opennop.Packet.Lengths

/-!
# Options that reach over the end of the option area

A scan compares the end of an option with the length of the whole TCP header, counted from the end
of the fixed part: it takes an option for present that ends up to twenty bytes behind the option
area. What `__get_tcp_option` reads and `__set_tcp_option` writes there is user data. An option that
starts at the last byte of the area even has its length byte there. `ownOption_iff` says exactly
which option areas are free of this.
-/

namespace Opennop

open Mem Relation

/-! ## The way of a scan -/

/-- A scan that leaves where `hit` holds comes to the index `i`. -/
def OnWay (p : Mem) (opt n : Nat) (hit : Nat → Bool) : Nat → Prop :=
  ReflTransGen (fun i j => follows p opt n i j ∧ hit i = false) 0

section OnWay

variable {p p' : Mem} {opt opt' n : Nat} {hit hit' : Nat → Bool} {i j : Nat}

theorem again_scanPass_eq :
    Again (scanPass p opt n hit) = fun i j => follows p opt n i j ∧ hit i = false := by
  funext i j
  exact propext again_scanPass

theorem scan_eq_some_iff :
    scan p opt n hit = .ok (some i) ↔ OnWay p opt n hit i ∧ i < n ∧ hit i = true := by
  have hloop : (∃ fuel, loop (scanPass p opt n hit) fuel 0 = .ok (some i)) ↔
      OnWay p opt n hit i ∧ i < n ∧ hit i = true := by
    rw [loop_ok_iff, again_scanPass_eq]
    constructor
    · rintro ⟨j, hj, hdone⟩
      unfold scanPass at hdone
      split at hdone
      · next hlt =>
        split at hdone
        · next hhit =>
          cases hdone
          exact ⟨hj, hlt, hhit⟩
        · cases hdone
      · cases hdone
    · rintro ⟨hwalk, hlt, hhit⟩
      exact ⟨i, hwalk, scanPass_hit hlt hhit⟩
  rw [← hloop]
  constructor
  · intro h
    exact ⟨257, h⟩
  · rintro ⟨fuel, h⟩
    obtain ⟨r, hr⟩ := scan_returns_iff.1 ⟨fuel, _, h⟩
    rw [hr, loop_unique hr h]

theorem scan_eq_none (hwalk : OnWay p opt n hit i) (hi : n ≤ i) : scan p opt n hit = .ok none := by
  unfold OnWay at hwalk
  rw [← again_scanPass_eq] at hwalk
  obtain ⟨fuel, h⟩ := loop_ok_iff.2 ⟨i, hwalk, scanPass_end hi⟩
  obtain ⟨r, hr⟩ := scan_returns_iff.1 ⟨fuel, _, h⟩
  rw [hr, loop_unique hr h]

/-- All indices on the way of a scan that finds something lie on the way to it. -/
theorem OnWay.lt (hj : OnWay p opt n hit j) (hi : OnWay p opt n hit i) (hlt : i < n)
    (hhit : hit i = true) : j < n := by
  have hunique : Relator.RightUnique fun i j => follows p opt n i j ∧ hit i = false := by
    intro a b c hb hc
    rw [hb.1.2, hc.1.2]
  rcases ReflTransGen.total_of_right_unique hunique hi hj with hij | hji
  · rcases ReflTransGen.cases_head hij with heq | ⟨k, hk, -⟩
    · rwa [← heq]
    · rw [hhit] at hk
      cases hk.2
  · rcases ReflTransGen.cases_head hji with heq | ⟨k, hk, -⟩
    · rwa [heq]
    · exact hk.1.1

theorem OnWay.eq_zero (h : OnWay p opt n hit i) (h₀ : hit 0 = true) : i = 0 := by
  rcases ReflTransGen.cases_head h with heq | ⟨j, hj, -⟩
  · exact heq.symm
  · rw [h₀] at hj
    cases hj.2

/-- Two areas with the same bytes lead a scan the same way, as long as it comes to no option that
starts at their last byte. -/
theorem OnWay.transport (hsame : ∀ i < n, p' (opt' + i) = p (opt + i))
    (hhit : ∀ i, i + 1 < n → hit' i = hit i)
    (h : ReflTransGen (fun i j => (follows p opt n i j ∧ hit i = false) ∧ i + 1 ≠ n) 0 i) :
    OnWay p' opt' n hit' i := by
  refine ReflTransGen.mono ?_ _ _ h
  rintro a b ⟨⟨⟨ha, hb⟩, hmiss⟩, hne⟩
  have hnext := hsame (a + 1) (by omega)
  rw [← Nat.add_assoc, ← Nat.add_assoc] at hnext
  refine ⟨⟨ha, ?_⟩, by rw [hhit a (by omega), hmiss]⟩
  rw [hb]
  unfold optlen
  rw [hsame a ha, hnext]

theorem OnWay.transport_all (hsame : ∀ i < n, p' (opt' + i) = p (opt + i))
    (hhit : ∀ i, i + 1 < n → hit' i = hit i) (hall : ∀ j, OnWay p opt n hit j → j + 1 < n)
    (h : OnWay p opt n hit i) : OnWay p' opt' n hit' i := by
  refine OnWay.transport hsame hhit ?_
  unfold OnWay at h
  induction h with
  | refl => exact .refl
  | tail hwalk hstep ih => exact ih.tail ⟨hstep, (hall _ hwalk).ne⟩

theorem OnWay.transport_last (hsame : ∀ i < n, p' (opt' + i) = p (opt + i))
    (hhit : ∀ i, i + 1 < n → hit' i = hit i) (hlast : i + 1 = n) (h : OnWay p opt n hit i) :
    OnWay p' opt' n hit' i := by
  refine OnWay.transport hsame hhit (ReflTransGen.mono ?_ _ _ (reach_first h))
  rintro a b ⟨hstep, hne⟩
  exact ⟨hstep, by omega⟩

end OnWay

/-! ## Packets with the same options -/

structure SameOptions (p p' : Mem) : Prop where
  doff : p'.doff = p.doff
  area : ∀ i < p.areaLen, p' (p'.optOff + i) = p (p.optOff + i)

section SameOptions

variable {p p' : Mem}

theorem SameOptions.refl (p : Mem) : SameOptions p p := ⟨rfl, fun _ _ => rfl⟩

theorem SameOptions.areaLen (h : SameOptions p p') : p'.areaLen = p.areaLen := by
  unfold Mem.areaLen
  rw [h.doff]

theorem SameOptions.trans {p₃ : Mem} (h : SameOptions p p') (h' : SameOptions p' p₃) :
    SameOptions p p₃ :=
  ⟨h'.doff.trans h.doff, fun i hi => (h'.area i (h.areaLen.symm ▸ hi)).trans (h.area i hi)⟩

theorem SameOptions.le_doff (h : SameOptions p p') (hd : 5 ≤ p.doff) : 5 ≤ p'.doff :=
  hd.trans_eq h.doff.symm

theorem SameOptions.dataOff (h : SameOptions p p') (hopt : p'.optOff = p.optOff) :
    p'.dataOff = p.dataOff := by
  unfold optOff at hopt
  unfold Mem.dataOff
  rw [h.doff, Nat.add_right_cancel hopt]

theorem optOff_add_areaLen (hd : 5 ≤ p.doff) : p.optOff + p.areaLen = p.dataOff := by
  have := doff_lt p
  unfold optOff Mem.areaLen dataOff
  omega

theorem sameOptions_of_below (hd : 5 ≤ p.doff) (h : SameBelow p.dataOff p p') :
    SameOptions p p' ∧ p'.optOff = p.optOff := by
  have hend := optOff_add_areaLen hd
  have hheader : SameBelow p.optOff p p' := fun i hi => h i (by omega)
  obtain ⟨hh, hdoff, -⟩ := sameHeader_of_below hheader
  have hopt : p'.optOff = p.optOff := by
    unfold optOff
    rw [hh.tcpOff]
  refine ⟨⟨hdoff, fun i hi => ?_⟩, hopt⟩
  rw [hopt]
  exact h _ (by omega)

theorem exists_behind (hd : 5 ≤ p.doff) (l : List UInt8) :
    ∃ p', SameOptions p p' ∧ p'.optOff = p.optOff ∧ p'.Holds p.dataOff l := by
  obtain ⟨hsame, hopt⟩ := sameOptions_of_below hd (SameBelow.write p l (Nat.le_refl p.dataOff))
  exact ⟨_, hsame, hopt, holds_write _ _ _⟩

/-- From an option that starts at the last byte of the area, with a small length behind the area, a
scan leaves the area. -/
theorem last_leaves {opt n i : Nat} (hlast : i + 1 = n) (hn : n ≤ 40)
    (hlen : (p (opt + i + 1)).toNat ≤ 3) : n ≤ (i + optlen p opt i) % 256 := by
  have hle : optlen p opt i ≤ 3 := by
    unfold optlen
    split <;> omega
  have hpos := optlen_pos p opt i
  rw [Nat.mod_eq_of_lt (by omega)]
  omega

end SameOptions

/-! ## The data bytes of an option -/

section Bytes

variable {p p' : Mem} {o o' i j : Nat}

theorem sumBytes_congr {count : Nat} (acc : Int)
    (h : ∀ t < count, p' (o' + i + (j + t) % 256) = p (o + i + (j + t) % 256)) (hj : j < 256) :
    sumBytes p' o' i count j acc = sumBytes p o i count j acc := by
  induction count generalizing j acc with
  | zero => rfl
  | succ count ih =>
    have h₀ := h 0 (Nat.succ_pos count)
    rw [Nat.add_zero, Nat.mod_eq_of_lt hj] at h₀
    rw [sumBytes, sumBytes, h₀]
    refine ih _ (fun t ht => ?_) (Nat.mod_lt _ (by decide))
    have hstep := h (t + 1) (by omega)
    rwa [show (j + (t + 1)) % 256 = ((j + 1) % 256 + t) % 256 by omega] at hstep

theorem shiftByte_bounds (b : UInt8) (count : Nat) :
    -2147483648 ≤ shiftByte b count ∧ shiftByte b count < 2147483648 := by
  unfold shiftByte
  dsimp only
  generalize b.toNat * 2 ^ (8 * count % 32) = v
  split <;> omega

/-- A byte is shifted to one of four places in an `int`, and none of its bits gets lost. -/
theorem shiftByte_inj {b c : UInt8} (count : Nat) (h : shiftByte b count = shiftByte c count) :
    b = c := by
  have hb := b.toNat_lt
  have hc := c.toNat_lt
  have hs : 8 * count % 32 = 0 ∨ 8 * count % 32 = 8 ∨ 8 * count % 32 = 16 ∨
      8 * count % 32 = 24 := by
    omega
  apply UInt8.toNat_inj.1
  unfold shiftByte at h
  dsimp only at h
  rcases hs with hs | hs | hs | hs
  all_goals
    rw [hs] at h
    split at h <;> split at h <;> omega

theorem sumBytes_nonneg (p : Mem) (o i count j : Nat) {acc : Int} (h₀ : 0 ≤ acc) :
    0 ≤ sumBytes p o i count j acc := by
  induction count generalizing j acc with
  | zero => exact h₀
  | succ count ih => exact ih _ (Int.emod_nonneg _ (by decide))

theorem sumBytes_acc_inj {count : Nat} {acc acc' : Int} (h₀ : 0 ≤ acc ∧ acc < 18446744073709551616)
    (h₀' : 0 ≤ acc' ∧ acc' < 18446744073709551616)
    (h : sumBytes p o i count j acc = sumBytes p o i count j acc') : acc = acc' := by
  induction count generalizing j acc acc' with
  | zero => exact h
  | succ count ih =>
    have hstep := ih ⟨Int.emod_nonneg _ (by decide), Int.emod_lt_of_pos _ (by decide)⟩
      ⟨Int.emod_nonneg _ (by decide), Int.emod_lt_of_pos _ (by decide)⟩ h
    generalize shiftByte (p (o + i + j)) count = x at hstep
    omega

/-- Every data byte counts: two sums that differ in one byte only are different. -/
theorem sumBytes_ne {count t : Nat} {acc : Int} (h₀ : 0 ≤ acc ∧ acc < 18446744073709551616)
    (hcount : count ≤ 256) (ht : t < count) (hj : j < 256)
    (hother : ∀ x, x ≠ o + i + (j + t) % 256 → p' x = p x)
    (hne : p' (o + i + (j + t) % 256) ≠ p (o + i + (j + t) % 256)) :
    sumBytes p' o i count j acc ≠ sumBytes p o i count j acc := by
  induction count generalizing j t acc with
  | zero => omega
  | succ count ih =>
    rw [sumBytes, sumBytes]
    cases t with
    | zero =>
      rw [Nat.add_zero, Nat.mod_eq_of_lt hj] at hne hother
      have hrest : ∀ acc', sumBytes p' o i count ((j + 1) % 256) acc' =
          sumBytes p o i count ((j + 1) % 256) acc' := by
        intro acc'
        refine sumBytes_congr acc' (fun s hs => hother _ ?_) (Nat.mod_lt _ (by decide))
        omega
      rw [hrest]
      intro heq
      have hacc :=
        sumBytes_acc_inj ⟨Int.emod_nonneg _ (by decide), Int.emod_lt_of_pos _ (by decide)⟩
        ⟨Int.emod_nonneg _ (by decide), Int.emod_lt_of_pos _ (by decide)⟩ heq
      have hb := shiftByte_bounds (p' (o + i + j)) count
      have hc := shiftByte_bounds (p (o + i + j)) count
      exact hne (shiftByte_inj count (by omega))
    | succ t =>
      rw [show (j + (t + 1)) % 256 = ((j + 1) % 256 + t) % 256 by omega] at hne hother
      rw [hother (o + i + j) (by omega)]
      exact ih ⟨Int.emod_nonneg _ (by decide), Int.emod_lt_of_pos _ (by decide)⟩
        (by omega) (by omega)
        (Nat.mod_lt _ (by decide)) hother hne

theorem putBytes_out (v : Nat) {count x : Nat} (p : Mem) (hj : j < 256)
    (h : ∀ t < count, x ≠ o + (j + t) % 256) : putBytes o v count j p x = p x := by
  induction count generalizing j p with
  | zero => rfl
  | succ count ih =>
    have h₀ := h 0 (Nat.succ_pos count)
    rw [Nat.add_zero, Nat.mod_eq_of_lt hj] at h₀
    rw [putBytes, ih _ (Nat.mod_lt _ (by decide)), set_ne _ _ h₀]
    intro t ht
    have hstep := h (t + 1) (by omega)
    rwa [show (j + (t + 1)) % 256 = ((j + 1) % 256 + t) % 256 by omega] at hstep

theorem putBytes_at (v : Nat) {count t : Nat} (p : Mem) (hcount : count ≤ 256) (ht : t < count)
    (hj : j < 256) : putBytes o v count j p (o + (j + t) % 256) =
      UInt8.ofNat (v / 2 ^ (8 * (count - 1 - t) % 64)) := by
  induction count generalizing j t p with
  | zero => omega
  | succ count ih =>
    rw [putBytes]
    cases t with
    | zero =>
      rw [show (j + 0) % 256 = j by omega, putBytes_out _ _ (Nat.mod_lt _ (by decide)), set_self]
      · rfl
      · intro s hs
        omega
    | succ t =>
      rw [show (j + (t + 1)) % 256 = ((j + 1) % 256 + t) % 256 by omega,
        ih _ (by omega) (by omega) (Nat.mod_lt _ (by decide)),
        show count - 1 - t = count + 1 - 1 - (t + 1) by omega]

end Bytes

/-! ## Reading and overwriting -/

/-- The length byte of the option at index `i`. -/
def declaredLen (p : Mem) (i : Nat) : Nat := (p (p.optOff + i + 1)).toNat

/-- `__get_tcp_option` takes the option at index `i` for the one it looks for. -/
def getHit (p : Mem) (k : UInt8) (i : Nat) : Bool :=
  p (p.optOff + i) == k && decide (i + declaredLen p i ≤ 4 * p.doff)

/-- `__set_tcp_option` takes the option at index `i` for the one it looks for. -/
def setHit (p : Mem) (k : UInt8) (len i : Nat) : Bool :=
  p (p.optOff + i) == k && decide (i + len ≤ 4 * p.doff) && declaredLen p i == len

/-- What is read from the option at index `i` of the area at `opt`. -/
def valueAt (p : Mem) (opt i : Nat) : Nat :=
  if (p (opt + i + 1)).toNat = 2 then 1
  else (sumBytes p opt i (((p (opt + i + 1)).toNat + 254) % 256) 2 0).toNat

/-- The value that `__get_tcp_option` returns is the same in all packets with the option area of `p`
on which the function returns; and where `__set_tcp_option` finds the option in such a packet and
overwrites it, it changes no byte outside the option area. -/
structure OwnOption (p : Mem) (k : UInt8) : Prop where
  value : ∀ p₁ p₂ v₁ v₂, SameOptions p p₁ → SameOptions p p₂ → getTcpOption p₁ k = .ok v₁ →
    getTcpOption p₂ k = .ok v₂ → v₁ = v₂
  update : ∀ q len i v r, SameOptions p q → scan q q.optOff q.areaLen (setHit q k len) =
    .ok (some i) → v < 2 ^ 64 → setTcpOption q k len v = .ok r → ∀ x, r.1 x ≠ q x →
      q.optOff ≤ x ∧ x < q.dataOff

/-! ## What the area says -/

def Mem.optionArea (p : Mem) : List UInt8 := p.read p.optOff p.areaLen

/-- The length byte of the option at index `i` of the area `a`, 0 for an option at its last byte. -/
def lenIn (a : List UInt8) (i : Nat) : Nat := (Mem.ofList a (i + 1)).toNat

/-- `__get_tcp_option` stops at index `i` of the area; at its last index, for some user data. -/
def getStops (a : List UInt8) (k : UInt8) (i : Nat) : Bool :=
  Mem.ofList a i == k && decide (i + lenIn a i ≤ a.length + 20)

/-- `__set_tcp_option` stops at index `i` of the area; at its last index, for some user data. -/
def setStops (a : List UInt8) (k : UInt8) (len i : Nat) : Bool :=
  Mem.ofList a i == k && decide (i + len ≤ a.length + 20) && (i + 1 == a.length || lenIn a i == len)

/-- From one index a scan gets to the other without reading a byte behind the area. -/
def Within (a : List UInt8) (stops : Nat → Bool) : Nat → Nat → Prop :=
  ReflTransGen fun i j => (follows (Mem.ofList a) 0 a.length i j ∧ stops i = false) ∧
    i + 1 < a.length

/-- The scan comes to an option that starts at the last byte of the area: its length byte, the first
byte of the user data, says where the scan goes on. -/
def GoesOn (a : List UInt8) (stops : Nat → Bool) : Prop :=
  Within a stops 0 (a.length - 1) ∧ 1 < Mem.ofList a (a.length - 1)

/-- The condition on an option area. -/
structure InArea (a : List UInt8) (k : UInt8) : Prop where
  /-- The option that is read ends in the area. -/
  value : ∀ i < a.length, Within a (getStops a k) 0 i → getStops a k i = true →
    2 ≤ lenIn a i ∧ i + lenIn a i ≤ a.length
  /-- From wherever the first byte `b` of the user data takes the scan, it reads 0, from no other
  byte of the user data. -/
  around : GoesOn a (getStops a k) → ∀ b : UInt8, ∀ i < a.length,
    Within a (getStops a k) ((a.length - 1 + b.toNat) % 256) i → getStops a k i = true →
    2 ≤ lenIn a i ∧ i + lenIn a i ≤ a.length + 1 ∧ valueAt (Mem.ofList (a ++ [b])) 0 i = 0
  /-- The option that is overwritten, if it has any data, ends in the area. -/
  update : ∀ len < 256, len ≠ 2 → ∀ i < a.length,
    Within a (setStops a k len) 0 i ∨
      GoesOn a (setStops a k len) ∧ (∃ j < a.length, Within a (setStops a k len) j i) →
    setStops a k len i = true → 2 ≤ len ∧ i + len ≤ a.length

section Area

variable {p p' : Mem} {k : UInt8} {i j n : Nat} {hit stops : Nat → Bool}

theorem length_optionArea (p : Mem) : p.optionArea.length = p.areaLen :=
  length_read p p.optOff p.areaLen

theorem SameOptions.optionArea (h : SameOptions p p') : p'.optionArea = p.optionArea := by
  unfold Mem.optionArea
  rw [h.areaLen]
  exact read_copy h.area

theorem ofList_area (l : List UInt8) (hi : i < p.areaLen) :
    Mem.ofList (p.optionArea ++ l) i = p (p.optOff + i) := by
  have hlen := length_optionArea p
  rw [Mem.ofList, List.getD_eq_getElem?_getD, List.getElem?_append_left (by omega), Mem.optionArea,
    getElem?_read p hi]
  rfl

theorem ofList_behind (a : List UInt8) (b : UInt8) : Mem.ofList (a ++ [b]) a.length = b := by
  rw [Mem.ofList, List.getD_eq_getElem?_getD, List.getElem?_concat_length]
  rfl

theorem ofList_optionArea (hi : i < p.areaLen) : Mem.ofList p.optionArea i = p (p.optOff + i) := by
  rw [← ofList_area [] hi, List.append_nil]

theorem lenIn_optionArea (hi : i + 1 < p.areaLen) : lenIn p.optionArea i = declaredLen p i := by
  unfold lenIn declaredLen
  rw [ofList_optionArea hi, Nat.add_assoc]

theorem lenIn_last {a : List UInt8} (h : i + 1 = a.length) : lenIn a i = 0 := by
  rw [lenIn, Mem.ofList, List.getD_eq_getElem?_getD, List.getElem?_eq_none (by omega)]
  rfl

theorem follows_optionArea (hi : i + 1 < p.areaLen) :
    follows (Mem.ofList p.optionArea) 0 p.areaLen i j ↔ follows p p.optOff p.areaLen i j := by
  have hnext := ofList_optionArea (p := p) hi
  rw [← Nat.add_assoc] at hnext
  unfold follows optlen
  rw [Nat.zero_add, ofList_optionArea (p := p) (by omega), hnext]

/-! ### The scan of a packet and the scan of its area -/

theorem Within.eq_of_last {a : List UInt8} (h : Within a stops j i) (hj : a.length ≤ j + 1) :
    i = j := by
  rcases ReflTransGen.cases_head h with heq | ⟨m, hm, -⟩
  · exact heq.symm
  · have := hm.2
    omega

theorem GoesOn.pos {a : List UInt8} (h : GoesOn a stops) : 0 < a.length := by
  cases a with
  | nil => exact absurd h.2 (by decide)
  | cons b a => exact Nat.succ_pos _

variable (hmatch : ∀ i, i + 1 < p.areaLen → hit i = stops i)
include hmatch

theorem Within.onWay (h : Within p.optionArea stops j i)
    (hj : OnWay p p.optOff p.areaLen hit j) : OnWay p p.optOff p.areaLen hit i := by
  have hlen := length_optionArea p
  unfold Within at h
  rw [hlen] at h
  induction h with
  | refl => exact hj
  | tail _ hstep ih =>
    obtain ⟨⟨hfollows, hmiss⟩, hlt⟩ := hstep
    exact ih.tail ⟨(follows_optionArea hlt).1 hfollows, (hmatch _ hlt).trans hmiss⟩

/-- The length byte behind the area takes the scan on. -/
theorem GoesOn.onWay (hd : 5 ≤ p.doff) (h : GoesOn p.optionArea stops)
    (hmiss : hit (p.areaLen - 1) = false) :
    OnWay p p.optOff p.areaLen hit ((p.areaLen - 1 + (p p.dataOff).toNat) % 256) := by
  have hlen := length_optionArea p
  have hend := optOff_add_areaLen hd
  have hn := areaLen_le hd
  have hpos := h.pos
  obtain ⟨hwithin, hbyte⟩ := h
  rw [hlen] at hwithin hbyte
  rw [ofList_optionArea (by omega)] at hbyte
  have hlast : OnWay p p.optOff p.areaLen hit (p.areaLen - 1) := hwithin.onWay hmatch .refl
  have hnext : p (p.optOff + (p.areaLen - 1) + 1) = p p.dataOff := by
    rw [show p.optOff + (p.areaLen - 1) + 1 = p.dataOff by omega]
  by_cases hzero : p p.dataOff = 0
  · rw [hzero, show (p.areaLen - 1 + (0 : UInt8).toNat) % 256 = p.areaLen - 1 by
      change (p.areaLen - 1 + 0) % 256 = _
      omega]
    exact hlast
  · refine hlast.tail ⟨⟨by omega, ?_⟩, hmiss⟩
    unfold optlen
    rw [hnext, if_neg]
    rintro (hle | hzero')
    · exact absurd (UInt8.lt_of_lt_of_le hbyte hle) (by decide)
    · exact hzero hzero'

/-- The scan of a packet stays in its area, or goes on where the first byte of the user data
says. -/
theorem OnWay.within (hd : 5 ≤ p.doff) (h : OnWay p p.optOff p.areaLen hit i) (hi : i < p.areaLen) :
    Within p.optionArea stops 0 i ∨ GoesOn p.optionArea stops ∧
      Within p.optionArea stops ((p.areaLen - 1 + (p p.dataOff).toNat) % 256) i := by
  have hlen := length_optionArea p
  have hend := optOff_add_areaLen hd
  have hn := areaLen_le hd
  unfold OnWay at h
  induction h with
  | refl => exact .inl .refl
  | @tail x y _ hstep ih =>
    obtain ⟨⟨hx, hy⟩, hmiss⟩ := hstep
    have ih := ih hx
    by_cases hlt : x + 1 < p.areaLen
    · have hin : (follows (Mem.ofList p.optionArea) 0 p.optionArea.length x y ∧ stops x = false) ∧
          x + 1 < p.optionArea.length := by
        rw [hlen]
        exact ⟨⟨(follows_optionArea hlt).2 ⟨hx, hy⟩, (hmatch x hlt).symm.trans hmiss⟩, hlt⟩
      exact ih.imp (fun h => h.tail hin) fun ⟨hon, h⟩ => ⟨hon, h.tail hin⟩
    · -- at the last byte the length is the first byte of the user data, or one
      have hx' : x = p.areaLen - 1 := by omega
      have hwithin : Within p.optionArea stops 0 (p.optionArea.length - 1) := by
        rw [hlen, ← hx']
        exact ih.elim id fun ⟨hon, _⟩ => by
          have hlast := hon.1
          rwa [hlen, ← hx'] at hlast
      unfold optlen at hy
      rw [show p.optOff + x + 1 = p.dataOff by omega] at hy
      split at hy
      · omega
      · next hne =>
        rw [hx'] at hy hne
        refine .inr ⟨⟨hwithin, ?_⟩, by rw [hy]; exact .refl⟩
        rw [hlen, ofList_optionArea (by omega)]
        exact UInt8.not_le.1 fun hle => hne (.inl hle)

end Area

section Stops

variable {p : Mem} {k : UInt8} {i : Nat}

theorem four_doff (hd : 5 ≤ p.doff) : 4 * p.doff = p.areaLen + 20 := by
  have hend := optOff_add_areaLen hd
  unfold dataOff optOff at hend
  omega

theorem getHit_eq (hd : 5 ≤ p.doff) (k : UInt8) (hi : i + 1 < p.areaLen) :
    getHit p k i = getStops p.optionArea k i := by
  unfold getHit getStops
  rw [ofList_optionArea (by omega), lenIn_optionArea hi, length_optionArea, four_doff hd]

theorem setHit_eq (hd : 5 ≤ p.doff) (k : UInt8) (len : Nat) (hi : i + 1 < p.areaLen) :
    setHit p k len i = setStops p.optionArea k len i := by
  unfold setHit setStops
  rw [ofList_optionArea (by omega), lenIn_optionArea hi, length_optionArea, four_doff hd,
    beq_false_of_ne (show i + 1 ≠ p.areaLen by omega), Bool.false_or]

theorem getStops_of_getHit (hd : 5 ≤ p.doff) (hi : i < p.areaLen) (h : getHit p k i = true) :
    getStops p.optionArea k i = true := by
  have hlen := length_optionArea p
  by_cases hlast : i + 1 < p.areaLen
  · exact (getHit_eq hd k hlast).symm.trans h
  · unfold getHit at h
    rw [Bool.and_eq_true] at h
    unfold getStops
    rw [ofList_optionArea hi, h.1, lenIn_last (by omega), decide_eq_true (by omega)]
    rfl

theorem setStops_of_setHit {len : Nat} (hd : 5 ≤ p.doff) (hi : i < p.areaLen)
    (h : setHit p k len i = true) : setStops p.optionArea k len i = true := by
  have hlen := length_optionArea p
  by_cases hlast : i + 1 < p.areaLen
  · exact (setHit_eq hd k len hlast).symm.trans h
  · unfold setHit at h
    rw [Bool.and_eq_true, Bool.and_eq_true, four_doff hd] at h
    unfold setStops
    rw [ofList_optionArea hi, h.1.1, hlen, h.1.2, show i + 1 = p.areaLen by omega]
    simp

end Stops

section Value

variable {p p' : Mem} {k : UInt8} {i o o' m : Nat}

theorem getTcpOption_found (h : scan p p.optOff p.areaLen (getHit p k) = .ok (some i)) :
    getTcpOption p k = .ok (valueAt p p.optOff i) := by
  unfold getTcpOption
  dsimp only
  change (scan p p.optOff p.areaLen (getHit p k) >>= _) = _
  rw [h, ok_bind, valueAt]
  by_cases hlen : (p (p.optOff + i + 1)).toNat = 2
  · rw [if_pos hlen]
    exact if_pos hlen
  · rw [if_neg hlen]
    exact if_neg hlen

theorem getTcpOption_absent (h : scan p p.optOff p.areaLen (getHit p k) = .ok none) :
    getTcpOption p k = .ok 0 := by
  unfold getTcpOption
  dsimp only
  change (scan p p.optOff p.areaLen (getHit p k) >>= _) = _
  rw [h, ok_bind]
  rfl

theorem getTcpOption_cases {v : Nat} (h : getTcpOption p k = .ok v) :
    (∃ i, scan p p.optOff p.areaLen (getHit p k) = .ok (some i) ∧ valueAt p p.optOff i = v) ∨
    v = 0 := by
  cases hscan : scan p p.optOff p.areaLen (getHit p k) with
  | error e =>
    unfold getTcpOption at h
    change (scan p p.optOff p.areaLen (getHit p k) >>= _) = _ at h
    rw [hscan] at h
    cases h
  | ok r =>
    cases r with
    | none =>
      rw [getTcpOption_absent hscan] at h
      cases h
      exact .inr rfl
    | some i =>
      rw [getTcpOption_found hscan] at h
      cases h
      exact .inl ⟨i, rfl, rfl⟩

/-- An option that ends in the first `m` bytes is read the same wherever these bytes are. -/
theorem valueAt_congr (hsame : ∀ j < m, p' (o' + j) = p (o + j)) (hlen : 2 ≤ (p (o + i + 1)).toNat)
    (hend : i + (p (o + i + 1)).toNat ≤ m) : valueAt p' o' i = valueAt p o i := by
  have hbyte := (p (o + i + 1)).toNat_lt
  have hnext := hsame (i + 1) (by omega)
  rw [← Nat.add_assoc, ← Nat.add_assoc] at hnext
  unfold valueAt
  rw [hnext, sumBytes_congr 0 _ (by decide)]
  intro t ht
  rw [Nat.mod_eq_of_lt (by omega), Nat.add_assoc, Nat.add_assoc]
  exact hsame _ (by omega)

/-- What an option holds that does not end in the first `m` bytes is up to the bytes behind them. -/
theorem exists_valueAt_ne (hi : i + 1 < m) (hm : m ≤ 255)
    (hover : ¬ (2 ≤ (p (o + i + 1)).toNat ∧ i + (p (o + i + 1)).toNat ≤ m)) :
    ∃ p', SameBelow (o + m) p p' ∧ valueAt p' o i ≠ valueAt p o i := by
  have hbyte := (p (o + i + 1)).toNat_lt
  -- a data byte of the option behind the `m` bytes
  obtain ⟨t, ht, hpos⟩ : ∃ t < ((p (o + i + 1)).toNat + 254) % 256, m ≤ i + (2 + t) % 256 := by
    by_cases h₂ : (p (o + i + 1)).toNat < 2
    · exact ⟨253, by omega, by omega⟩
    · exact ⟨(p (o + i + 1)).toNat - 3, by omega, by omega⟩
  have hbelow : SameBelow (o + m) p (p.set (o + i + (2 + t) % 256)
      (p (o + i + (2 + t) % 256) + 1)) := SameBelow.set p _ (by omega)
  have hchanged := set_self p (o + i + (2 + t) % 256) (p (o + i + (2 + t) % 256) + 1)
  have hother : ∀ x, x ≠ o + i + (2 + t) % 256 → p.set (o + i + (2 + t) % 256)
      (p (o + i + (2 + t) % 256) + 1) x = p x := fun x hx => set_ne p _ hx
  generalize p.set (o + i + (2 + t) % 256) (p (o + i + (2 + t) % 256) + 1) = p'
    at hbelow hchanged hother
  have hlen : (p (o + i + 1)).toNat ≠ 2 := by omega
  have hne : p' (o + i + (2 + t) % 256) ≠ p (o + i + (2 + t) % 256) := by
    rw [hchanged]
    simp
  have hsum : sumBytes p' o i (((p (o + i + 1)).toNat + 254) % 256) 2 0 ≠
      sumBytes p o i (((p (o + i + 1)).toNat + 254) % 256) 2 0 :=
    sumBytes_ne ⟨Int.le_refl 0, by decide⟩ (Nat.le_of_lt (Nat.mod_lt _ (by decide))) ht (by decide)
      hother hne
  have hb := sumBytes_nonneg p o i (((p (o + i + 1)).toNat + 254) % 256) 2 (Int.le_refl 0)
  have hb' := sumBytes_nonneg p' o i (((p (o + i + 1)).toNat + 254) % 256) 2 (Int.le_refl 0)
  refine ⟨p', hbelow, ?_⟩
  unfold valueAt
  rw [hbelow (o + i + 1) (by omega), if_neg hlen, if_neg hlen]
  omega

/-! ### Where the scan stops -/

theorem getTcpOption_within (hd : 5 ≤ p.doff) (hi : i + 1 < p.areaLen)
    (hwithin : Within p.optionArea (getStops p.optionArea k) 0 i)
    (hstops : getStops p.optionArea k i = true) : getTcpOption p k = .ok (valueAt p p.optOff i) :=
  getTcpOption_found (scan_eq_some_iff.2 ⟨hwithin.onWay (fun _ => getHit_eq hd k) .refl, by omega,
    (getHit_eq hd k hi).trans hstops⟩)

/-- So is the option at which it stops when the first byte of the user data has taken it on. -/
theorem getTcpOption_around (hd : 5 ≤ p.doff) (hon : GoesOn p.optionArea (getStops p.optionArea k))
    (hlast : getStops p.optionArea k (p.areaLen - 1) = false) (hi : i + 1 < p.areaLen)
    (hwithin : Within p.optionArea (getStops p.optionArea k)
      ((p.areaLen - 1 + (p p.dataOff).toNat) % 256) i)
    (hstops : getStops p.optionArea k i = true) : getTcpOption p k =
    .ok (valueAt p p.optOff i) := by
  have hmiss : getHit p k (p.areaLen - 1) = false := by
    by_contra hhit
    rw [Bool.not_eq_false] at hhit
    rw [getStops_of_getHit hd (by omega) hhit] at hlast
    cases hlast
  exact getTcpOption_found (scan_eq_some_iff.2
    ⟨hwithin.onWay (fun _ => getHit_eq hd k)
      (hon.onWay (fun _ => getHit_eq hd k) hd hmiss), by omega,
      (getHit_eq hd k hi).trans hstops⟩)

/-- An option at the last byte of the area has its length and its value in the user data. -/
theorem getTcpOption_last (hd : 5 ≤ p.doff) (hlast : i + 1 = p.areaLen)
    (hwithin : Within p.optionArea (getStops p.optionArea k) 0 i) (hk : p (p.optOff + i) = k)
    {b : UInt8} (hdata : p.Holds p.dataOff [3, b]) : getTcpOption p k = .ok b.toNat := by
  have hend := optOff_add_areaLen hd
  obtain ⟨hlen, hb⟩ := holds_cons.1 hdata
  obtain ⟨hb, -⟩ := holds_cons.1 hb
  have hthree : (p (p.optOff + i + 1)).toNat = 3 := by
    rw [show p.optOff + i + 1 = p.dataOff by omega, hlen]
    rfl
  have hhit : getHit p k i = true := by
    unfold getHit declaredLen
    rw [hk, hthree, four_doff hd, decide_eq_true (by omega)]
    simp
  rw [getTcpOption_found (scan_eq_some_iff.2
    ⟨hwithin.onWay (fun _ => getHit_eq hd k) .refl, by omega, hhit⟩), valueAt, hthree,
      if_neg (by decide)]
  change Except.ok (sumBytes p p.optOff i 1 2 0).toNat = _
  have hbyte := b.toNat_lt
  have hshift : shiftByte b 0 = b.toNat := by
    unfold shiftByte
    simp only [Nat.mul_zero, Nat.zero_mod, Nat.pow_zero, Nat.mul_one]
    rw [Nat.mod_eq_of_lt (by omega), if_pos (by omega)]
  rw [sumBytes, sumBytes, show p.optOff + i + 2 = p.dataOff + 1 by omega, hb, hshift]
  refine congrArg _ ?_
  omega

/-- Another option at the last byte, with the length 0 in the user data, ends the scan. -/
theorem getTcpOption_ends (hd : 5 ≤ p.doff) (hlast : i + 1 = p.areaLen)
    (hwithin : Within p.optionArea (getStops p.optionArea k) 0 i)
    (hk : getStops p.optionArea k i = false)
    (hdata : p p.dataOff = 0) : getTcpOption p k = .ok 0 := by
  have hend := optOff_add_areaLen hd
  have hmiss : getHit p k i = false := by
    by_contra hhit
    rw [Bool.not_eq_false] at hhit
    rw [getStops_of_getHit hd (by omega) hhit] at hk
    cases hk
  have hshort : (p (p.optOff + i + 1)).toNat ≤ 3 := by
    rw [show p.optOff + i + 1 = p.dataOff by omega, hdata]
    decide
  have hstep : follows p p.optOff p.areaLen i ((i + optlen p p.optOff i) % 256) := ⟨by omega, rfl⟩
  have hway := hwithin.onWay (fun _ => getHit_eq hd k) .refl
  exact getTcpOption_absent
    (scan_eq_none (hway.tail ⟨hstep, hmiss⟩) (last_leaves hlast (areaLen_le hd) hshort))

/-! ### The condition is enough -/

theorem InArea.read (h : InArea p.optionArea k) (hd : 5 ≤ p.doff) (hi : i < p.areaLen)
    (hwithin : Within p.optionArea (getStops p.optionArea k) 0 i)
    (hstops : getStops p.optionArea k i = true) :
    getTcpOption p k = .ok (valueAt (Mem.ofList p.optionArea) 0 i) := by
  have hlen := length_optionArea p
  obtain ⟨htwo, hend⟩ := h.value i (by omega) hwithin hstops
  have hlt : i + 1 < p.areaLen := by omega
  rw [lenIn_optionArea hlt] at htwo hend
  rw [getTcpOption_within hd hlt hwithin hstops]
  refine congrArg _
    (valueAt_congr (m := p.areaLen) (fun j hj => ?_) htwo (by rwa [hlen] at hend)).symm
  rw [Nat.zero_add, ofList_optionArea hj]

theorem InArea.absent (h : InArea p.optionArea k) (hd : 5 ≤ p.doff)
    (hno : ∀ i < p.areaLen, Within p.optionArea (getStops p.optionArea k) 0 i →
      getStops p.optionArea k i = false) {v : Nat} (hget : getTcpOption p k = .ok v) : v = 0 := by
  have hlen := length_optionArea p
  have hareaEnd := optOff_add_areaLen hd
  rcases getTcpOption_cases hget with ⟨i, hscan, rfl⟩ | hzero
  · obtain ⟨hway, hi, hhit⟩ := scan_eq_some_iff.1 hscan
    have hstops := getStops_of_getHit hd hi hhit
    rcases hway.within (fun _ => getHit_eq hd k) hd hi with hwithin | ⟨hon, hwithin⟩
    · rw [hno i hi hwithin] at hstops
      cases hstops
    · rw [← hlen] at hwithin
      obtain ⟨htwo, hend, hvalue⟩ := h.around hon _ i (by omega) hwithin hstops
      have hlt : i + 1 < p.areaLen := by
        by_contra hlast
        rw [lenIn_last (by omega)] at htwo
        omega
      rw [lenIn_optionArea hlt] at htwo hend
      rw [← hvalue]
      refine (valueAt_congr (m := p.areaLen + 1) (fun j hj => ?_) htwo (by rwa [hlen] at hend)).symm
      rw [Nat.zero_add]
      by_cases hlt' : j < p.areaLen
      · exact ofList_area _ hlt'
      · rw [show j = p.optionArea.length by omega, ofList_behind, hlen, hareaEnd]
  · exact hzero

/-! ### The condition is needed -/

theorem OwnOption.value_complete (h : OwnOption p k) (hd : 5 ≤ p.doff) (hi : i < p.areaLen)
    (hwithin : Within p.optionArea (getStops p.optionArea k) 0 i)
    (hstops : getStops p.optionArea k i = true) :
    2 ≤ lenIn p.optionArea i ∧ i + lenIn p.optionArea i ≤ p.areaLen := by
  have hend := optOff_add_areaLen hd
  have hn := areaLen_le hd
  by_cases hlast : i + 1 = p.areaLen
  · -- the length byte 3 and a byte of value behind the area
    exfalso
    have hk : p (p.optOff + i) = k := by
      unfold getStops at hstops
      rw [Bool.and_eq_true, beq_iff_eq, ofList_optionArea hi] at hstops
      exact hstops.1
    have hread : ∀ b : UInt8, ∃ p', SameOptions p p' ∧ getTcpOption p' k = .ok b.toNat := by
      intro b
      obtain ⟨p', hsame, hopt, hdata⟩ := exists_behind hd [3, b]
      rw [← hsame.dataOff hopt] at hdata
      refine ⟨p', hsame,
        getTcpOption_last (i := i) (hsame.le_doff hd) (hlast.trans hsame.areaLen.symm)
        ?_ ((hsame.area i hi).trans hk) hdata⟩
      rw [hsame.optionArea]
      exact hwithin
    obtain ⟨p₁, hsame₁, hget₁⟩ := hread 0
    obtain ⟨p₂, hsame₂, hget₂⟩ := hread 1
    exact absurd (h.value p₁ p₂ _ _ hsame₁ hsame₂ hget₁ hget₂) (by decide)
  · rw [lenIn_optionArea (by omega)]
    by_contra hover
    obtain ⟨p', hbelow, hne⟩ :=
      exists_valueAt_ne (o := p.optOff) (m := p.areaLen) (by omega) (by omega) hover
    rw [hend] at hbelow
    obtain ⟨hsame, hopt⟩ := sameOptions_of_below hd hbelow
    have hget := getTcpOption_within hd (by omega) hwithin hstops
    have hget' : getTcpOption p' k = .ok (valueAt p' p'.optOff i) := by
      refine getTcpOption_within (hsame.le_doff hd) (hsame.areaLen.symm ▸ by omega) ?_ ?_
      · rw [hsame.optionArea]
        exact hwithin
      · rw [hsame.optionArea]
        exact hstops
    rw [hopt] at hget'
    exact hne (h.value p' p _ _ hsame (.refl p) hget' hget)

/-- Where the first byte of the user data takes the scan on, every packet reads the 0 that it reads
when this byte ends the scan. -/
theorem OwnOption.around_zero (h : OwnOption p k) (hd : 5 ≤ p.doff)
    (hon : GoesOn p.optionArea (getStops p.optionArea k))
    (hlast : getStops p.optionArea k (p.areaLen - 1) = false) (hi : i + 1 < p.areaLen)
    (hstops : getStops p.optionArea k i = true) (hsame : SameOptions p p')
    (hwithin : Within p.optionArea (getStops p.optionArea k)
      ((p.areaLen - 1 + (p' p'.dataOff).toNat) % 256) i) : valueAt p' p'.optOff i = 0 := by
  have hlen := length_optionArea p
  have hget : getTcpOption p' k = .ok (valueAt p' p'.optOff i) := by
    refine getTcpOption_around (hsame.le_doff hd) ?_ ?_ (hsame.areaLen.symm ▸ hi) ?_ ?_
    · rw [hsame.optionArea]
      exact hon
    · rw [hsame.optionArea, hsame.areaLen]
      exact hlast
    · rw [hsame.optionArea, hsame.areaLen]
      exact hwithin
    · rw [hsame.optionArea]
      exact hstops
  obtain ⟨p₀, hsame₀, hopt₀, hdata₀⟩ := exists_behind hd [0]
  rw [← hsame₀.dataOff hopt₀] at hdata₀
  have hget₀ : getTcpOption p₀ k = .ok 0 := by
    refine getTcpOption_ends (i := p.areaLen - 1) (hsame₀.le_doff hd) ?_ ?_ ?_
      (holds_cons.1 hdata₀).1
    · rw [hsame₀.areaLen]
      omega
    · rw [hsame₀.optionArea, ← hlen]
      exact hon.1
    · rw [hsame₀.optionArea]
      exact hlast
  exact h.value p' p₀ _ _ hsame hsame₀ hget hget₀

theorem OwnOption.around (h : OwnOption p k) (hd : 5 ≤ p.doff)
    (hon : GoesOn p.optionArea (getStops p.optionArea k)) (b : UInt8) (hi : i < p.areaLen)
    (hwithin : Within p.optionArea (getStops p.optionArea k) ((p.areaLen - 1 + b.toNat) % 256) i)
    (hstops : getStops p.optionArea k i = true) :
    2 ≤ lenIn p.optionArea i ∧ i + lenIn p.optionArea i ≤ p.areaLen + 1 ∧
      valueAt (Mem.ofList (p.optionArea ++ [b])) 0 i = 0 := by
  have hlen := length_optionArea p
  have hn := areaLen_le hd
  have hpos := hon.pos
  have hlast : getStops p.optionArea k (p.areaLen - 1) = false := by
    by_contra hfound
    rw [Bool.not_eq_false] at hfound
    have htwo := (h.value_complete hd (by omega) (hlen ▸ hon.1) hfound).1
    rw [lenIn_last (by omega)] at htwo
    omega
  have hlt : i + 1 < p.areaLen := by
    by_contra hge
    rw [show i = p.areaLen - 1 by omega, hlast] at hstops
    cases hstops
  obtain ⟨q, hsame, hopt, hdata⟩ := exists_behind hd [b]
  have hb := (holds_cons.1 hdata).1
  have hend := optOff_add_areaLen hd
  have hq : ∀ j < p.areaLen, q (p.optOff + j) = p (p.optOff + j) := by
    intro j hj
    rw [← hsame.area j hj, hopt]
  have hqlen : (q (p.optOff + i + 1)).toNat = lenIn p.optionArea i := by
    rw [lenIn_optionArea hlt, Nat.add_assoc, hq (i + 1) hlt]
    rfl
  -- a packet with the byte `b` behind the area reads 0
  have hzero : ∀ p', SameBelow (p.dataOff + 1) q p' → valueAt p' p.optOff i = 0 := by
    intro p' hbelow
    have hbelow' : SameBelow q.dataOff q p' := fun x hx =>
      hbelow x (by rw [← hsame.dataOff hopt]; omega)
    obtain ⟨hsame', hopt'⟩ := sameOptions_of_below (hsame.le_doff hd) hbelow'
    have hdata' := (hsame'.dataOff hopt').trans (hsame.dataOff hopt)
    rw [← hopt, ← hopt']
    refine h.around_zero hd hon hlast hlt hstops (hsame.trans hsame') ?_
    rw [hdata', hbelow p.dataOff (by omega), hb]
    exact hwithin
  have hcomplete : 2 ≤ lenIn p.optionArea i ∧ i + lenIn p.optionArea i ≤ p.areaLen + 1 := by
    rw [← hqlen]
    by_contra hover
    obtain ⟨p', hbelow, hne⟩ :=
      exists_valueAt_ne (o := p.optOff) (m := p.areaLen + 1) (by omega) (by omega)
      hover
    rw [← Nat.add_assoc, hend] at hbelow
    exact hne ((hzero p' hbelow).trans (hzero q fun _ _ => rfl).symm)
  refine ⟨hcomplete.1, hcomplete.2, ?_⟩
  rw [← hqlen] at hcomplete
  refine Eq.trans ?_ (hzero q fun _ _ => rfl)
  refine valueAt_congr (m := p.areaLen + 1) (fun j hj => ?_) hcomplete.1 hcomplete.2
  rw [Nat.zero_add]
  by_cases hlt' : j < p.areaLen
  · rw [ofList_area _ hlt', hq j hlt']
  · rw [show j = p.optionArea.length by omega, ofList_behind, hlen, hend, hb]

end Value

section Update

variable {p : Mem} {k : UInt8} {len i : Nat}

theorem setTcpOption_found (hd : 5 ≤ p.doff)
    (h : scan p p.optOff p.areaLen (setHit p k len) = .ok (some i)) (v : Nat) :
    setTcpOption p k len v = .ok (putBytes (p.optOff + i) v ((len + 254) % 256) 2 p, 0) := by
  have hgt : p.doff > 5 := by
    have hi := (scan_eq_some_iff.1 h).2.1
    have hend := optOff_add_areaLen hd
    unfold optOff dataOff at hend
    omega
  unfold setTcpOption
  dsimp only
  rw [if_pos hgt]
  change (scan p p.optOff p.areaLen (setHit p k len) >>= _) = _
  rw [h, ok_bind]
  rfl

theorem setHit_len (h : setHit p k len i = true) : len < 256 := by
  unfold setHit at h
  rw [Bool.and_eq_true, beq_iff_eq] at h
  rw [← h.2]
  exact (p (p.optOff + i + 1)).toNat_lt

/-- An update stays in the area exactly when it writes nothing or the option ends in the area. -/
theorem putBytes_inside_iff (hd : 5 ≤ p.doff) (hi : i < p.areaLen) (hlen : len < 256) :
    (∀ v < 2 ^ 64, ∀ x, putBytes (p.optOff + i) v ((len + 254) % 256) 2 p x ≠ p x →
      p.optOff ≤ x ∧ x < p.dataOff) ↔ len = 2 ∨ 2 ≤ len ∧ i + len ≤ p.areaLen := by
  have hn := areaLen_le hd
  have hend := optOff_add_areaLen hd
  constructor
  · intro h
    by_contra hover
    -- a byte of the update that lies behind the area, and a value that changes it
    obtain ⟨t, ht, hpos⟩ : ∃ t < (len + 254) % 256, p.areaLen ≤ i + (2 + t) % 256 := by
      by_cases h₂ : len < 2
      · exact ⟨253, by omega, by omega⟩
      · exact ⟨len - 3, by omega, by omega⟩
    obtain ⟨b, hb⟩ : ∃ b : UInt8, b ≠ p (p.optOff + i + (2 + t) % 256) :=
      ⟨p (p.optOff + i + (2 + t) % 256) + 1, by simp⟩
    generalize hs : 8 * ((len + 254) % 256 - 1 - t) % 64 = s
    have hs' : s = 0 ∨ s = 8 ∨ s = 16 ∨ s = 24 ∨ s = 32 ∨ s = 40 ∨ s = 48 ∨ s = 56 := by omega
    have hpow : 0 < 2 ^ s := Nat.two_pow_pos s
    have hv : b.toNat * 2 ^ s < 2 ^ 64 := by
      have hb' := b.toNat_lt
      rcases hs' with rfl | rfl | rfl | rfl | rfl | rfl | rfl | rfl <;> omega
    have hwritten := putBytes_at (o := p.optOff + i) (b.toNat * 2 ^ s) p
      (Nat.le_of_lt (Nat.mod_lt (len + 254) (by decide))) ht (show 2 < 256 by decide)
    rw [hs, Nat.mul_div_cancel _ hpow, UInt8.ofNat_toNat] at hwritten
    have := (h _ hv (p.optOff + i + (2 + t) % 256) (by rwa [hwritten])).2
    omega
  · intro hin v _ x hx
    by_contra hout
    refine hx (putBytes_out v p (by decide) fun t ht heq => ?_)
    omega

/-- Where the scan of the area stops, some packet with this area finds the option. -/
theorem exists_setHit (hd : 5 ≤ p.doff) (hlen : len < 256) (hi : i < p.areaLen)
    (hwithin : Within p.optionArea (setStops p.optionArea k len) 0 i)
    (hstops : setStops p.optionArea k len i = true) :
    ∃ q, SameOptions p q ∧ scan q q.optOff q.areaLen (setHit q k len) = .ok (some i) := by
  have hend := optOff_add_areaLen hd
  obtain ⟨q, hsame, hopt, hdata⟩ := exists_behind hd [UInt8.ofNat len]
  have hd' := hsame.le_doff hd
  have hi' : i < q.areaLen := hsame.areaLen.symm ▸ hi
  rw [← hsame.optionArea] at hwithin hstops
  refine ⟨q, hsame,
    scan_eq_some_iff.2 ⟨hwithin.onWay (fun _ => setHit_eq hd' k len) .refl, hi', ?_⟩⟩
  by_cases hlast : i + 1 < q.areaLen
  · exact (setHit_eq hd' k len hlast).trans hstops
  · have hareaLen := hsame.areaLen
    have hdeclared : declaredLen q i = len := by
      rw [declaredLen, show q.optOff + i + 1 = p.dataOff by omega, (holds_cons.1 hdata).1,
        UInt8.toNat_ofNat', Nat.mod_eq_of_lt hlen]
    unfold setStops at hstops
    rw [Bool.and_eq_true, Bool.and_eq_true, ofList_optionArea hi', length_optionArea,
      ← four_doff hd'] at hstops
    unfold setHit
    rw [hstops.1.1, hstops.1.2, hdeclared]
    simp

theorem exists_setHit_around (hd : 5 ≤ p.doff)
    (hon : GoesOn p.optionArea (setStops p.optionArea k len))
    (hlast : setStops p.optionArea k len (p.areaLen - 1) = false) (hi : i < p.areaLen) {j : Nat}
    (hj : j < p.areaLen) (hwithin : Within p.optionArea (setStops p.optionArea k len) j i)
    (hstops : setStops p.optionArea k len i = true) :
    ∃ q, SameOptions p q ∧ scan q q.optOff q.areaLen (setHit q k len) = .ok (some i) := by
  have hareaLen := length_optionArea p
  have hn := areaLen_le hd
  have hlt : i + 1 < p.areaLen := by
    by_contra hge
    rw [show i = p.areaLen - 1 by omega, hlast] at hstops
    cases hstops
  have hj' : j + 1 < p.areaLen := by
    by_contra hge
    have := hwithin.eq_of_last (by omega)
    omega
  obtain ⟨q, hsame, hopt, hdata⟩ := exists_behind hd [UInt8.ofNat (257 + j - p.areaLen)]
  have hd' := hsame.le_doff hd
  have hmiss : setHit q k len (q.areaLen - 1) = false := by
    by_contra hhit
    rw [Bool.not_eq_false] at hhit
    have hfound := setStops_of_setHit hd' (by rw [hsame.areaLen]; omega) hhit
    rw [hsame.optionArea, hsame.areaLen, hlast] at hfound
    cases hfound
  rw [← hsame.optionArea] at hon hwithin hstops
  have hway := hon.onWay (fun _ => setHit_eq hd' k len) hd' hmiss
  rw [hsame.dataOff hopt, (holds_cons.1 hdata).1, UInt8.toNat_ofNat', hsame.areaLen,
    show (p.areaLen - 1 + (257 + j - p.areaLen) % 256) % 256 = j by omega, ← hsame.areaLen] at hway
  exact ⟨q, hsame, scan_eq_some_iff.2 ⟨hwithin.onWay (fun _ => setHit_eq hd' k len) hway,
    hsame.areaLen.symm ▸ hi, (setHit_eq hd' k len (hsame.areaLen.symm ▸ hlt)).trans hstops⟩⟩

theorem OwnOption.inside {q : Mem} (h : OwnOption p k) (hd : 5 ≤ p.doff) (hsame : SameOptions p q)
    (hscan : scan q q.optOff q.areaLen (setHit q k len) = .ok (some i)) :
    len = 2 ∨ 2 ≤ len ∧ i + len ≤ p.areaLen := by
  obtain ⟨-, hi, hhit⟩ := scan_eq_some_iff.1 hscan
  have hd' := hsame.le_doff hd
  rw [← hsame.areaLen]
  refine (putBytes_inside_iff hd' hi (setHit_len hhit)).1 fun v hv x hx => ?_
  exact h.update q len i v _ hsame hscan hv (setTcpOption_found hd' hscan v) x hx

theorem OwnOption.update_complete (h : OwnOption p k) (hd : 5 ≤ p.doff) (hlen : len < 256)
    (hne : len ≠ 2)
    (hi : i < p.areaLen)
    (hreached : Within p.optionArea (setStops p.optionArea k len) 0 i ∨
      GoesOn p.optionArea (setStops p.optionArea k len) ∧
        ∃ j < p.areaLen, Within p.optionArea (setStops p.optionArea k len) j i)
    (hstops : setStops p.optionArea k len i = true) : 2 ≤ len ∧ i + len ≤ p.areaLen := by
  have hareaLen := length_optionArea p
  have hfirst : ∀ i < p.areaLen, Within p.optionArea (setStops p.optionArea k len) 0 i →
      setStops p.optionArea k len i = true → 2 ≤ len ∧ i + len ≤ p.areaLen := by
    intro i hi hwithin hstops
    obtain ⟨q, hsame, hscan⟩ := exists_setHit hd hlen hi hwithin hstops
    exact (h.inside hd hsame hscan).resolve_left hne
  rcases hreached with hwithin | ⟨hon, j, hj, hwithin⟩
  · exact hfirst i hi hwithin hstops
  · have hpos := hon.pos
    have hlast : setStops p.optionArea k len (p.areaLen - 1) = false := by
      by_contra hfound
      rw [Bool.not_eq_false] at hfound
      have := hfirst (p.areaLen - 1) (by omega) (hareaLen ▸ hon.1) hfound
      omega
    obtain ⟨q, hsame, hscan⟩ := exists_setHit_around hd hon hlast hi hj hwithin hstops
    exact (h.inside hd hsame hscan).resolve_left hne

/-- An index that the scan of a packet stops at is one that the condition speaks of. -/
theorem InArea.inside (h : InArea p.optionArea k) (hd : 5 ≤ p.doff)
    (hscan : scan p p.optOff p.areaLen (setHit p k len) = .ok (some i)) :
    len = 2 ∨ 2 ≤ len ∧ i + len ≤ p.areaLen := by
  have hareaLen := length_optionArea p
  obtain ⟨hway, hi, hhit⟩ := scan_eq_some_iff.1 hscan
  by_cases hne : len = 2
  · exact .inl hne
  · right
    rw [← hareaLen]
    refine h.update len (setHit_len hhit) hne i (by omega) ?_ (setStops_of_setHit hd hi hhit)
    refine (hway.within (fun _ => setHit_eq hd k len) hd hi).imp id fun ⟨hon, hwithin⟩ =>
      ⟨hon, _, ?_, hwithin⟩
    by_contra hge
    have := hwithin.eq_of_last (by omega)
    omega

end Update

/-- **Reading and overwriting an option stays in the option area exactly when the area says so**,
over all packets with the option area of `p`: the option that is found ends in the area, and where
the scan comes to an option at the last byte of the area, what the user data make of it is no value
other than 0. -/
theorem ownOption_iff (p : Mem) (k : UInt8) (hd : 5 ≤ p.doff) :
    OwnOption p k ↔ InArea p.optionArea k := by
  have hlen := length_optionArea p
  constructor
  · intro h
    refine ⟨fun i hi => ?_, fun hon b i hi => ?_, fun len hbyte hne i hi => ?_⟩
    all_goals rw [hlen] at hi ⊢
    · exact h.value_complete hd hi
    · exact h.around hd hon b hi
    · exact h.update_complete hd hbyte hne hi
  · intro h
    refine ⟨?_, ?_⟩
    · by_cases hfound : ∃ i < p.areaLen, Within p.optionArea (getStops p.optionArea k) 0 i ∧
          getStops p.optionArea k i = true
      · obtain ⟨i, hi, hwithin, hstops⟩ := hfound
        have hread : ∀ q, SameOptions p q →
            getTcpOption q k = .ok (valueAt (Mem.ofList p.optionArea) 0 i) := by
          intro q hsame
          have hq : InArea q.optionArea k := hsame.optionArea.symm ▸ h
          rw [← hsame.optionArea] at hwithin hstops ⊢
          exact hq.read (hsame.le_doff hd) (hsame.areaLen.symm ▸ hi) hwithin hstops
        intro p₁ p₂ v₁ v₂ hsame₁ hsame₂ hget₁ hget₂
        rw [hread p₁ hsame₁] at hget₁
        rw [hread p₂ hsame₂] at hget₂
        exact Except.ok.inj (hget₁.symm.trans hget₂)
      · have habsent : ∀ q v, SameOptions p q → getTcpOption q k = .ok v → v = 0 := by
          intro q v hsame hget
          have hq : InArea q.optionArea k := hsame.optionArea.symm ▸ h
          refine hq.absent (hsame.le_doff hd) (fun i hi hwithin => ?_) hget
          rw [hsame.areaLen] at hi
          rw [hsame.optionArea] at hwithin ⊢
          by_contra hstops
          exact hfound ⟨i, hi, hwithin, (Bool.not_eq_false _).mp hstops⟩
        intro p₁ p₂ v₁ v₂ hsame₁ hsame₂ hget₁ hget₂
        rw [habsent p₁ v₁ hsame₁ hget₁, habsent p₂ v₂ hsame₂ hget₂]
    · intro q len i v r hsame hscan hv hset x hx
      have hq : InArea q.optionArea k := hsame.optionArea.symm ▸ h
      have hd' := hsame.le_doff hd
      obtain ⟨-, hi, hhit⟩ := scan_eq_some_iff.1 hscan
      rw [setTcpOption_found hd' hscan] at hset
      cases hset
      exact (putBytes_inside_iff hd' hi (setHit_len hhit)).2 (hq.inside hd' hscan) v hv x hx

/-- A segment with a NOP, a window scale and the maximum segment size. -/
theorem ownOption_mss : 5 ≤ (segment [1, 3, 3, 7, 2, 4, 5, 180]).doff ∧
    OwnOption (segment [1, 3, 3, 7, 2, 4, 5, 180]) 2 := by
  refine ⟨by decide, (ownOption_iff (segment [1, 3, 3, 7, 2, 4, 5, 180]) 2 (by decide)).2 ?_⟩
  have harea : (segment [1, 3, 3, 7, 2, 4, 5, 180]).optionArea = [1, 3, 3, 7, 2, 4, 5, 180] := by
    decide
  rw [harea]
  have hstops : getStops [1, 3, 3, 7, 2, 4, 5, 180] 2 4 = true := by decide
  have hway : ∀ i, Within [1, 3, 3, 7, 2, 4, 5, 180] (getStops [1, 3, 3, 7, 2, 4, 5, 180] 2) 0 i →
      i = 0 ∨ i = 1 ∨ i = 4 := by
    intro i hi
    induction hi with
    | refl => exact .inl rfl
    | tail _ hstep ih =>
      obtain ⟨⟨⟨-, hj⟩, hmiss⟩, -⟩ := hstep
      rcases ih with rfl | rfl | rfl
      · exact .inr (.inl (hj.trans (by decide)))
      · exact .inr (.inr (hj.trans (by decide)))
      · rw [hstops] at hmiss
        cases hmiss
  refine ⟨fun i _ hwithin hi => ?_, fun hon => ?_, fun len hlen hne i hi _ hfound => ?_⟩
  · rcases hway i hwithin with rfl | rfl | rfl
    · exact absurd hi (by decide)
    · exact absurd hi (by decide)
    · decide
  · exact absurd (hway _ hon.1) (by decide)
  · unfold setStops at hfound
    simp only [Bool.and_eq_true, Bool.or_eq_true, beq_iff_eq] at hfound
    have honly : ∀ i < 8, Mem.ofList [1, 3, 3, 7, 2, 4, 5, 180] i = 2 → i = 4 := by decide
    obtain rfl := honly i hi hfound.1.1
    obtain rfl : 4 = len := hfound.2.resolve_left (by decide)
    exact ⟨by decide, by decide⟩

/-- The maximum segment size option of this segment has its two data bytes in the user data: its
value is what the user sends, and overwriting it changes what the user sends. -/
theorem not_ownOption_overhang :
    5 ≤ (segment [1, 1, 2, 4]).doff ∧ ¬ OwnOption (segment [1, 1, 2, 4]) 2 := by
  refine ⟨by decide, fun h => ?_⟩
  have hsame := (sameOptions_of_below (by decide)
    (SameBelow.write (segment [1, 1, 2, 4]) [7, 7] (Nat.le_refl (segment [1, 1, 2, 4]).dataOff))).1
  have hvalue := h.value _ _ 257 1799 (.refl _) hsame (by decide +kernel) (by decide +kernel)
  exact absurd hvalue (by decide)

end Opennop
