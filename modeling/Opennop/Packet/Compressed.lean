import Opennop.Packet.Compression
import Opennop.Packet.SetOption

/-!
# What `tcp_compress` does to a packet

On a well-formed packet `tcp_compress` replaces the data, then asks `__set_tcp_option` for the flag
without looking at its result, then shifts the sequence number. The result is followed here on the
options of the packet.
-/

namespace Opennop

open Mem

/-! ## Fields that stay -/

/-- The fields by which a packet belongs to a connection, and its flags. -/
structure SameEnds (p p' : Mem) : Prop where
  ihl : p'.ihl = p.ihl
  protocol : p'.protocol = p.protocol
  saddr : p'.saddr = p.saddr
  daddr : p'.daddr = p.daddr
  source : p'.source = p.source
  dest : p'.dest = p.dest
  flags : p'.flags = p.flags

theorem SameEnds.trans {p p' p'' : Mem} (h : SameEnds p p') (h' : SameEnds p' p'') :
    SameEnds p p'' :=
  ⟨h'.ihl.trans h.ihl, h'.protocol.trans h.protocol, h'.saddr.trans h.saddr, h'.daddr.trans h.daddr,
    h'.source.trans h.source, h'.dest.trans h.dest, h'.flags.trans h.flags⟩

theorem SameHeader.sameEnds {p p' : Mem} (h : SameHeader p p') (hi : 5 ≤ p.ihl) : SameEnds p p' :=
  ⟨h.ihl, h.protocol hi, h.saddr hi, h.daddr hi, h.source hi, h.dest hi, h.flags hi⟩

theorem setSeq_out (p : Mem) (v : Nat) {i : Nat} (h : i < p.tcpOff + 4 ∨ p.tcpOff + 8 ≤ i) :
    p.setSeq v i = p i := setBe32_out p v (by omega)

theorem ihl_setSeq (p : Mem) (v : Nat) : (p.setSeq v).ihl = p.ihl := by
  unfold ihl
  rw [setSeq_out p v (by omega)]

theorem tcpOff_setSeq (p : Mem) (v : Nat) : (p.setSeq v).tcpOff = p.tcpOff := by
  unfold tcpOff
  rw [ihl_setSeq]

theorem doff_setSeq (p : Mem) (v : Nat) : (p.setSeq v).doff = p.doff := by
  unfold doff
  rw [tcpOff_setSeq, setSeq_out p v (by omega)]

theorem seq_setSeq (p : Mem) (v : Nat) : (p.setSeq v).seq = v % 4294967296 := by
  unfold seq
  rw [tcpOff_setSeq]
  exact be32_setBe32 p _ v

theorem seq_lt (p : Mem) : p.seq < 4294967296 := be32_lt p _

theorem sameEnds_setSeq {p : Mem} (hi : 5 ≤ p.ihl) (v : Nat) : SameEnds p (p.setSeq v) := by
  have hoff : 20 ≤ p.tcpOff := by
    unfold tcpOff
    omega
  refine ⟨ihl_setSeq p v, setSeq_out p v (by omega),
    le32_congr fun i h₁ h₂ => setSeq_out p v (by omega),
    le32_congr fun i h₁ h₂ => setSeq_out p v (by omega), ?_, ?_, ?_⟩
  · unfold source
    rw [tcpOff_setSeq]
    exact le16_congr fun i h₁ h₂ => setSeq_out p v (by omega)
  · unfold dest
    rw [tcpOff_setSeq]
    exact le16_congr fun i h₁ h₂ => setSeq_out p v (by omega)
  · unfold flags
    rw [tcpOff_setSeq, setSeq_out p v (by omega)]

variable {p : Mem} {D : Nat} {os : List Opt} {d : List UInt8}

theorem Shows.setSeq (h : Shows p D os d) (v : Nat) : Shows (p.setSeq v) D os d := by
  have hi := h.ihl
  have h5 := h.five_le
  have hopt : (p.setSeq v).optOff = p.optOff := by
    unfold optOff
    rw [tcpOff_setSeq]
  refine ⟨by rwa [ihl_setSeq], by rw [doff_setSeq, h.doff], h5, ?_, ?_, ?_⟩
  · rw [hopt]
    exact h.area.congr fun i h₁ h₂ => setSeq_out p v (by unfold optOff at h₁; omega)
  · rw [ihl_setSeq, ← h.totLen]
    exact be16_congr fun i h₁ h₂ => setSeq_out p v (by unfold tcpOff; omega)
  · rw [tcpOff_setSeq]
    exact h.data.congr fun i h₁ h₂ => setSeq_out p v (by omega)

theorem Shows.payload (h : Shows p D os d) (ht : 4 * p.ihl + 4 * D + d.length < 65536) :
    p.payload = d := by
  unfold Mem.payload
  rw [h.payload_len ht, h.dataOff]
  exact h.data

/-! ## Replacing the data -/

theorem replaceData_shows (h : Shows p D os d) (hd : d.length < 65536) (x : List UInt8) :
    Shows (replaceData p x) D os (x.take (x.length % 65536)) ∧ SameHeader p (replaceData p x) := by
  have h5 := h.five_le
  have hi := h.ihl
  have hD := h.doff_lt
  have hlt := ihl_lt p
  unfold replaceData
  dsimp only
  rw [h.dataLen hd]
  have hlen : (x.take (x.length % 65536)).length = x.length % 65536 := by
    rw [List.length_take]
    omega
  generalize x.take (x.length % 65536) = y at hlen
  rw [← hlen]
  have hbelow : ∀ i < p.dataOff, p.write p.dataOff y i = p i := fun i hi => write_out p (.inl hi)
  have hoff := h.dataOff_eq
  obtain ⟨hh₁, hdoff₁, htot₁⟩ := sameHeader_of_below fun i hi => hbelow i (by omega)
  have hw := holds_write p p.dataOff y
  generalize p.write p.dataOff y = p₁ at hbelow hh₁ hdoff₁ htot₁ hw
  have hh₂ := sameHeader_setTotLen p₁ (((p₁.totLen : Int) + y.length - d.length) % 65536).toNat
  have hh := hh₁.trans hh₂
  have habove : ∀ i, p₁.optOff ≤ i →
      p₁.setTotLen (((p₁.totLen : Int) + y.length - d.length) % 65536).toNat i = p₁ i := fun i hi =>
    setBe16_out p₁ _ (by unfold optOff at hi; omega)
  have hi₁ : 5 ≤ p₁.ihl := by rwa [hh₁.ihl]
  refine ⟨⟨by rwa [hh.ihl], ?_, h5, ?_, ?_, ?_⟩, hh⟩
  · rw [doff_setTotLen hi₁, hdoff₁, h.doff]
  · rw [hh.optOff]
    refine h.area.congr fun i h₁ h₂ => ?_
    rw [habove i (by rwa [hh₁.optOff]), hbelow i (by omega)]
  · rw [hh.ihl, totLen_setTotLen, htot₁, h.totLen]
    omega
  · rw [hh.tcpOff, ← h.dataOff]
    exact hw.congr fun i h₁ h₂ => habove i (by rw [hh₁.optOff]; omega)

/-! ## `tcp_compress` -/

/-- The conditions under which `tcp_compress` touches the packet. -/
def Attempted (q : Qlz) (compression lzbuffer stateCompress : Bool) (p : Mem) : Prop :=
  (stateCompress ∧ compression) ∧ p.protocol = ipprotoTcp ∧ 0 < p.dataLen ∧ lzbuffer ∧
    (qlzCompress q p).length % 65536 < p.dataLen

instance (q : Qlz) (compression lzbuffer stateCompress : Bool) (p : Mem) :
    Decidable (Attempted q compression lzbuffer stateCompress p) := by
  unfold Attempted
  infer_instance

section Compress

variable {q : Qlz} {compression lzbuffer stateCompress : Bool}

theorem tcpCompress_unchanged (h : ¬ Attempted q compression lzbuffer stateCompress p) :
    ∃ r, tcpCompress q compression lzbuffer stateCompress p = .ok (p, r) := by
  unfold Attempted at h
  unfold tcpCompress
  split
  · split
    · split
      · split
        · split
          · exact absurd ⟨‹_›, ‹_›, ‹_›, ‹_›, ‹_›⟩ h
          · exact ⟨1, rfl⟩
        · exact ⟨0, rfl⟩
      · exact ⟨1, rfl⟩
    · exact ⟨1, rfl⟩
  · exact ⟨1, rfl⟩

theorem qlzCompress_eq (h : Shows p D os d) (hd : d.length < 65536) :
    qlzCompress q p = q.compress d := by
  unfold qlzCompress
  rw [h.dataLen hd, h.dataOff, h.data]

/-- The part of the output that reaches the packet: its length went through a `__u16`. -/
def sent (z : List UInt8) : List UInt8 := z.take (z.length % 65536)

theorem length_sent (z : List UInt8) : (sent z).length = z.length % 65536 := by
  unfold sent
  rw [List.length_take]
  omega

theorem sent_eq {z : List UInt8} (h : z.length < 65536) : sent z = z := by
  unfold sent
  rw [Nat.mod_eq_of_lt h, List.take_length]

theorem tcpCompress_shows (h : Shows p D os d) (ht : 4 * p.ihl + 4 * D + d.length < 65536)
    (ha : Attempted q compression lzbuffer stateCompress p) :
    ∃ p', tcpCompress q compression lzbuffer stateCompress p = .ok (p', 1) ∧
      Shows p' (setOption compressed [1] D os).1 (setOption compressed [1] D os).2
        (sent (q.compress d)) ∧
      p'.seq = (p.seq + 8000) % 4294967296 ∧ SameEnds p p' := by
  have hz := qlzCompress_eq (q := q) h (by omega)
  obtain ⟨ha₁, ha₂, ha₃, ha₄, ha₅⟩ := ha
  obtain ⟨h₁, hh₁⟩ := replaceData_shows h (by omega) (qlzCompress q p)
  have hlen := length_sent (q.compress d)
  rw [hz] at h₁ hh₁
  have hless : (sent (q.compress d)).length < d.length := by
    rwa [hlen, ← hz, ← h.dataLen (by omega)]
  obtain ⟨p₂, r, hp₂, h₂, hh₂, -⟩ := setTcpOption_shows h₁
    (by rw [hh₁.ihl]; unfold sent at hless; omega) (k := compressed) (by decide)
      (show 2 ≤ 3 by decide)
    (by decide) 1
  have hh := hh₁.trans hh₂
  refine ⟨p₂.setSeq (p₂.seq + 8000), ?_, h₂.setSeq _, ?_, ?_⟩
  · unfold tcpCompress
    rw [if_pos ha₁, if_pos ha₂, if_pos ha₃, if_pos ha₄, if_pos ha₅, hz, hp₂, ok_bind]
    rfl
  · rw [seq_setSeq, hh.seq h.ihl]
  · exact (hh.sameEnds h.ihl).trans (sameEnds_setSeq (by rw [hh.ihl]; exact h.ihl) _)

end Compress

/-! ## The flag -/

/-- What `__get_tcp_option(., 31)` returns. -/
def flagValue (os : List Opt) : Nat :=
  match firstOfKind compressed os with
  | some o => o.value
  | none => 0

theorem getTcpOption_flag (h : Shows p D os d) : getTcpOption p compressed = .ok (flagValue os) :=
  getTcpOption_shows h (by decide)

/-- The flag can be set so that it reads back: the first option 31 has the flag's length, or its
value is not zero anyway, or there is none of that length and the largest area has room for one. -/
def FlagLands (os : List Opt) : Prop :=
  (∃ o, firstOfKind compressed os = some o ∧ o.encode.length = 3) ∨ flagValue os ≠ 0 ∨
    (firstOfKindLen compressed 3 os = none ∧ used os + 3 ≤ 40)

theorem firstOfKind_overwriteFirst {k : UInt8} {x : List UInt8} {os : List Opt} {o : Opt}
    (h : firstOfKind k os = some o) : firstOfKind k (overwriteFirst k x os) =
      if o.encode.length = x.length + 2 then some (.opt k x) else some o := by
  induction os with
  | nil => cases h
  | cons o' os ih =>
    unfold firstOfKind at h ih ⊢
    by_cases hk : o'.kind = k
    · rw [List.find?_cons_of_pos (by simpa using hk), Option.some.injEq] at h
      subst h
      by_cases hl : o'.encode.length = x.length + 2
      · rw [overwriteFirst, if_pos (by simp [hk, hl]), if_pos hl]
        exact List.find?_cons_of_pos (by simp [Opt.kind])
      · rw [overwriteFirst, if_neg (by simp [hl]), if_neg hl]
        exact List.find?_cons_of_pos (by simpa using hk)
    · rw [List.find?_cons_of_neg (by simpa using hk)] at h
      rw [overwriteFirst, if_neg (by simp [hk]), List.find?_cons_of_neg (by simpa using hk), ih h]

theorem firstOfKind_isSome {k : UInt8} {len : Nat} {os : List Opt} {o : Opt}
    (h : firstOfKindLen k len os = some o) : ∃ o', firstOfKind k os = some o' := by
  have hk := List.find?_some h
  rw [Bool.and_eq_true] at hk
  exact Option.isSome_iff_exists.1 (List.find?_isSome.2 ⟨o, List.mem_of_find?_eq_some h, hk.1⟩)

theorem firstOfKindLen_of_first {k : UInt8} {len : Nat} {os : List Opt} {o : Opt}
    (h : firstOfKind k os = some o) (hl : o.encode.length = len) :
    firstOfKindLen k len os ≠ none := by
  intro hn
  have := List.find?_eq_none.1 hn o (List.mem_of_find?_eq_some h)
  have hk := List.find?_some h
  simp_all

theorem setOption_flag (b : UInt8) (D : Nat) (os : List Opt) : setOption compressed [b] D os =
    if (firstOfKindLen compressed 3 os).isSome then (D, overwriteFirst compressed [b] os)
    else if used os + 3 ≤ 40 then (grown D (used os) 3, .opt compressed [b] :: squeezed os)
    else (D, squeezed os) := rfl

theorem flagValue_setOption (D : Nat) (os : List Opt) :
    flagValue (setOption compressed [1] D os).2 ≠ 0 ↔ FlagLands os := by
  have hone : (Opt.opt compressed [1]).value ≠ 0 := by decide
  rw [setOption_flag]
  unfold FlagLands
  cases hf : firstOfKindLen compressed 3 os with
  | some o =>
    obtain ⟨o', ho'⟩ := firstOfKind_isSome hf
    rw [Option.isSome_some, if_pos rfl]
    have hval : flagValue os = o'.value := by simp only [flagValue, ho']
    have hval' : firstOfKind compressed (overwriteFirst compressed [1] os) =
        if o'.encode.length = 3 then some (.opt compressed [1]) else some o' :=
      firstOfKind_overwriteFirst ho'
    rw [hval, ho']
    by_cases hl : o'.encode.length = 3
    · rw [if_pos hl] at hval'
      simp only [flagValue, hval', Option.some.injEq, exists_eq_left', hl, true_or, iff_true]
      exact hone
    · rw [if_neg hl] at hval'
      simp [flagValue, hval', hl]
  | none =>
    rw [Option.isSome_none, if_neg (by simp)]
    by_cases hfit : used os + 3 ≤ 40
    · rw [if_pos hfit]
      have : firstOfKind compressed (.opt compressed [1] :: squeezed os) =
          some (.opt compressed [1]) :=
        List.find?_cons_of_pos (by decide)
      simp only [flagValue, this, hfit, and_self, or_true, iff_true]
      exact hone
    · rw [if_neg hfit]
      have hval : flagValue (squeezed os) = flagValue os := by
        simp only [flagValue, firstOfKind_squeezed os (show 2 ≤ compressed by decide)]
      rw [hval]
      constructor
      · exact fun h => .inr (.inl h)
      · rintro (⟨o, ho, hl⟩ | h | ⟨-, h⟩)
        · exact absurd hf (firstOfKindLen_of_first ho hl)
        · exact h
        · exact absurd h hfit

/-! ## All or nothing -/

/-- The packet is unchanged, or it carries the compressed data, the shifted sequence number and the
flag. -/
def AllOrNothing (q : Qlz) (compression lzbuffer stateCompress : Bool) (p : Mem) : Prop :=
  ∃ p' r, tcpCompress q compression lzbuffer stateCompress p = .ok (p', r) ∧
    (p' = p ∨ p'.payload = q.compress p.payload ∧ p'.seq = (p.seq + 8000) % 4294967296 ∧
      ∃ v, getTcpOption p' compressed = .ok v ∧ v ≠ 0)

theorem WellFormed.payload_shows (h : WellFormed p os) : Shows p p.doff os p.payload ∧
    4 * p.ihl + 4 * p.doff + p.payload.length = p.totLen := by
  refine ⟨h.shows _ rfl, ?_⟩
  have := h.totLen
  unfold Mem.payload
  rw [length_read]
  omega

/-- A packet that has outgrown its length field seems to have no data. -/
theorem Shows.payload_nil (h : Shows p D os d) (ht : 65536 ≤ 4 * p.ihl + 4 * D + d.length)
    (hd : d.length < 65536) : p.payload = [] := by
  have := ihl_lt p
  have := h.doff_lt
  have := h.totLen
  unfold Mem.payload
  rw [show p.totLen - 4 * p.ihl - 4 * p.doff = 0 by rw [h.doff]; omega, read_zero]

theorem length_payload_lt (p : Mem) : p.payload.length < 65536 := by
  have := totLen_lt p
  unfold Mem.payload
  rw [length_read]
  omega

theorem seq_shift_ne (p : Mem) : (p.seq + 8000) % 4294967296 ≠ p.seq := by
  have := seq_lt p
  omega

theorem allOrNothing_attempted {q : Qlz} {compression lzbuffer stateCompress : Bool}
    (h : WellFormed p os) (ha : Attempted q compression lzbuffer stateCompress p) :
    AllOrNothing q compression lzbuffer stateCompress p ↔
      (q.compress p.payload).length < 65536 ∧ FlagLands os ∧
        4 * p.ihl + 4 * (setOption compressed [1] p.doff os).1 +
          (q.compress p.payload).length < 65536 := by
  obtain ⟨hs, htot⟩ := h.payload_shows
  have hlt := totLen_lt p
  obtain ⟨p', hp', h', hseq, hends⟩ := tcpCompress_shows hs (by omega) ha
  have hflag := flagValue_setOption p.doff os
  have hne : p' ≠ p := by
    rintro rfl
    exact seq_shift_ne p' hseq.symm
  unfold AllOrNothing
  rw [hp']
  constructor
  · rintro ⟨p₁, r, hp₁, hcase⟩
    rw [Except.ok.injEq, Prod.mk.injEq] at hp₁
    obtain ⟨rfl, rfl⟩ := hp₁
    rcases hcase with heq | ⟨hpay, -, v, hv, hv0⟩
    · exact absurd heq hne
    · have hz : (q.compress p.payload).length < 65536 := by
        rw [← hpay]
        exact length_payload_lt p'
      rw [sent_eq hz] at h'
      refine ⟨hz, ?_, Nat.lt_of_not_le fun hover => ?_⟩
      · rw [getTcpOption_flag h', Except.ok.injEq] at hv
        subst hv
        exact hflag.1 hv0
      · have hi := ihl_lt p
        have hD' := h'.doff_lt
        rw [h'.payload_nil (by rw [hends.ihl]; exact hover) hz] at hpay
        rw [← hpay, List.length_nil] at hover
        omega
  · rintro ⟨hz, hlands, hfits⟩
    rw [sent_eq hz] at h'
    refine ⟨p', 1, rfl, .inr ⟨h'.payload (by rw [hends.ihl]; exact hfits), hseq, _,
      getTcpOption_flag h', hflag.2 hlands⟩⟩

/-- Where the flag is a new option for which the area has to grow by a word, the packet with `n`
bytes of data stays within its length field. -/
def LengthFits (p : Mem) (os : List Opt) (n : Nat) : Prop :=
  firstOfKindLen compressed 3 os = none → 4 * p.doff - 20 < used os + 3 → used os + 3 ≤ 40 →
    4 * p.ihl + 4 * p.doff + 4 + n < 65536

theorem lengthFits_iff (h : WellFormed p os) {n : Nat} (hn : 4 * p.ihl + 4 * p.doff + n < 65536) :
    LengthFits p os n ↔ 4 * p.ihl + 4 * (setOption compressed [1] p.doff os).1 + n < 65536 := by
  have hu := (h.shows _ rfl).used_le
  have h5 := h.doff
  unfold LengthFits
  rw [setOption_flag]
  cases hf : firstOfKindLen compressed 3 os with
  | some o => simpa using hn
  | none =>
    rw [Option.isSome_none, if_neg (by simp)]
    by_cases hfit : used os + 3 ≤ 40
    · rw [if_pos hfit]
      by_cases hfree : 4 * p.doff - 20 < used os + 3
      · have hg : grown p.doff (used os) 3 = p.doff + 1 := by
          unfold grown
          rw [dwords_eq]
          omega
        simp only [hfree, hfit, forall_const, hg]
        omega
      · rw [grown_eq_self (by omega)]
        simp only [hfree, false_imp_iff, imp_true_iff, true_iff]
        exact hn
    · rw [if_neg hfit]
      simp only [hfit, false_imp_iff, imp_true_iff, true_iff]
      exact hn

/-- **Compression is all or nothing exactly when the flag lands.** Nothing is attempted, or the
compressed length fits its 16 bits, the flag reads back after `__set_tcp_option`, and the packet
stays within its length field. -/
theorem allOrNothing_iff (q : Qlz) (compression lzbuffer stateCompress : Bool) (p : Mem)
    (os : List Opt) (h : WellFormed p os) :
    AllOrNothing q compression lzbuffer stateCompress p ↔
      (Attempted q compression lzbuffer stateCompress p →
        (q.compress p.payload).length < 65536 ∧ FlagLands os ∧
          LengthFits p os (q.compress p.payload).length) := by
  by_cases ha : Attempted q compression lzbuffer stateCompress p
  · obtain ⟨hs, htot⟩ := h.payload_shows
    have hlt := totLen_lt p
    have hless := ha.2.2.2.2
    rw [qlzCompress_eq hs (by omega), hs.dataLen (by omega)] at hless
    rw [allOrNothing_attempted h ha]
    simp only [ha, forall_const]
    refine and_congr_right fun hz => and_congr_right fun _ => ?_
    rw [Nat.mod_eq_of_lt hz] at hless
    exact (lengthFits_iff h (by omega)).symm
  · obtain ⟨r, hr⟩ := tcpCompress_unchanged ha
    exact ⟨fun _ ha' => absurd ha' ha, fun _ => ⟨p, r, hr, .inl rfl⟩⟩

/-- A segment with two bytes of data and the given bytes, a whole number of words, as its
options. -/
def segment (area : List UInt8) : Mem :=
  Mem.ofList ([0x45, 0, 0, UInt8.ofNat (42 + area.length), 0, 0, 0, 0, 64, 6, 0, 0,
    10, 0, 0, 1, 10, 0, 0, 2, 0x30, 0x39, 0, 80, 0, 0, 0, 1, 0, 0, 0, 0,
    UInt8.ofNat ((5 + area.length / 4) * 16), 16, 0xff, 0xff, 0, 0, 0, 0] ++ area ++ [1, 1])

/-- A compressor that stores one byte whatever its input. -/
def shortQlz : Qlz := ⟨fun _ => [0], fun _ => []⟩

theorem allOrNothing_segment : WellFormed (segment []) [] ∧
    Attempted shortQlz true true true (segment []) ∧
    AllOrNothing shortQlz true true true (segment []) :=
  ⟨by decide, by decide, (allOrNothing_iff shortQlz true true true (segment []) [] (by decide)).2
    fun _ => ⟨by decide, .inr (.inr ⟨rfl, by decide⟩), fun _ _ _ => by decide⟩⟩

/-- One option of forty bytes leaves no room for the flag: the data is replaced and the sequence
number shifted without it. -/
theorem not_allOrNothing_full :
    WellFormed (segment (5 :: 40 :: List.replicate 38 7)) [.opt 5 (List.replicate 38 7)] ∧
      ¬ AllOrNothing shortQlz true true true (segment (5 :: 40 :: List.replicate 38 7)) := by
  have hwf :
      WellFormed (segment (5 :: 40 :: List.replicate 38 7)) [.opt 5 (List.replicate 38 7)] := by
    decide
  refine ⟨hwf, fun hall => ?_⟩
  obtain ⟨-, hlands, -⟩ := (allOrNothing_attempted hwf (by decide)).1 hall
  rcases hlands with ⟨o, ho, -⟩ | hval | ⟨-, hused⟩
  · cases ho
  · exact hval rfl
  · exact absurd hused (by decide)

end Opennop
