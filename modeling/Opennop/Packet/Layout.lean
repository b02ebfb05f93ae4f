import Opennop.Packet.Scan

/-!
# Well-formed packets

`Shows p D os d` says what a well-formed packet is: `D` words of TCP header whose option area holds
the options `os`, then the data `d`. The total length is stated modulo `2^16`, the width of its
field, so that the relation also describes a packet that has grown past it. `SameHeader` says which
of the other header bytes a rewriting of options and data leaves alone.
-/

namespace Opennop

open Mem

/-! ## Header bytes -/

theorem ihl_lt (p : Mem) : p.ihl < 16 := by
  unfold ihl
  omega

theorem doff_lt (p : Mem) : p.doff < 16 := by
  have := (p (p.tcpOff + 12)).toNat_lt
  unfold doff
  omega

theorem totLen_lt (p : Mem) : p.totLen < 65536 := be16_lt p 2

/-- The length of the option area does not wrap around. -/
theorem areaLen_eq {p : Mem} (h : 5 ≤ p.doff) : p.areaLen = 4 * p.doff - 20 := by
  have := doff_lt p
  unfold areaLen
  omega

/-- The header is the same up to the total length and the data offset. -/
def SameHeader (p p' : Mem) : Prop :=
  ∀ i < p.optOff, i ≠ 2 → i ≠ 3 → i ≠ p.tcpOff + 12 → p' i = p i

namespace SameHeader

variable {p p' p'' : Mem}

theorem refl (p : Mem) : SameHeader p p := fun _ _ _ _ _ => rfl

theorem ihl (h : SameHeader p p') : p'.ihl = p.ihl := by
  unfold Mem.ihl
  rw [h 0 (by unfold Mem.optOff; omega) (by omega) (by omega) (by omega)]

theorem tcpOff (h : SameHeader p p') : p'.tcpOff = p.tcpOff := by
  unfold Mem.tcpOff
  rw [h.ihl]

theorem optOff (h : SameHeader p p') : p'.optOff = p.optOff := by
  unfold Mem.optOff
  rw [h.tcpOff]

theorem dataOff (h : SameHeader p p') (hd : p'.doff = p.doff) : p'.dataOff = p.dataOff := by
  unfold Mem.dataOff
  rw [h.tcpOff, hd]

theorem trans (h : SameHeader p p') (h' : SameHeader p' p'') : SameHeader p p'' := by
  intro i hi h2 h3 hd
  rw [h' i (by rwa [h.optOff]) h2 h3 (by rwa [h.tcpOff]), h i hi h2 h3 hd]

section Fields

variable (h : SameHeader p p') (hi : 5 ≤ p.ihl)
include h hi

theorem ipByte {i : Nat} (h₁ : 4 ≤ i) (h₂ : i < 20) : p' i = p i :=
  h i (by unfold Mem.optOff Mem.tcpOff; omega) (by omega) (by omega)
    (by unfold Mem.tcpOff; omega)

theorem tcpByte {i : Nat} (h₁ : i < 20) (h₂ : i ≠ 12) : p' (p.tcpOff + i) = p (p.tcpOff + i) :=
  h _ (by unfold Mem.optOff; omega) (by unfold Mem.tcpOff; omega) (by unfold Mem.tcpOff; omega)
    (by omega)

theorem protocol : p'.protocol = p.protocol := h.ipByte hi (by omega) (by omega)

theorem saddr : p'.saddr = p.saddr :=
  le32_congr fun _ h₁ h₂ => h.ipByte hi (by omega) (by omega)

theorem daddr : p'.daddr = p.daddr :=
  le32_congr fun _ h₁ h₂ => h.ipByte hi (by omega) (by omega)

theorem source : p'.source = p.source := by
  unfold Mem.source
  rw [h.tcpOff]
  refine le16_congr fun i h₁ h₂ => ?_
  have := h.tcpByte hi (i := i - p.tcpOff) (by omega) (by omega)
  rwa [Nat.add_sub_cancel' h₁] at this

theorem dest : p'.dest = p.dest := by
  unfold Mem.dest
  rw [h.tcpOff]
  refine le16_congr fun i h₁ h₂ => ?_
  have := h.tcpByte hi (i := i - p.tcpOff) (by omega) (by omega)
  rwa [Nat.add_sub_cancel' (by omega)] at this

theorem seq : p'.seq = p.seq := by
  unfold Mem.seq
  rw [h.tcpOff]
  refine be32_congr fun i h₁ h₂ => ?_
  have := h.tcpByte hi (i := i - p.tcpOff) (by omega) (by omega)
  rwa [Nat.add_sub_cancel' (by omega)] at this

theorem flags : p'.flags = p.flags := by
  unfold Mem.flags
  rw [h.tcpOff, h.tcpByte hi (by omega) (by omega)]

end Fields

end SameHeader

/-- Memories that agree below the option area have the same header, data offset and length. -/
theorem sameHeader_of_below {p p' : Mem} (h : ∀ i < p.optOff, p' i = p i) :
    SameHeader p p' ∧ p'.doff = p.doff ∧ p'.totLen = p.totLen := by
  have hs : SameHeader p p' := fun i hi _ _ _ => h i hi
  refine ⟨hs, ?_, ?_⟩
  · unfold doff
    rw [hs.tcpOff, h _ (by unfold optOff; omega)]
  · exact be16_congr fun i h₁ h₂ => h i (by unfold optOff; omega)

theorem sameHeader_setTotLen (p : Mem) (v : Nat) : SameHeader p (p.setTotLen v) := by
  intro i _ h2 h3 _
  exact setBe16_out p v (by omega)

theorem totLen_setTotLen (p : Mem) (v : Nat) : (p.setTotLen v).totLen = v % 65536 :=
  be16_setBe16 p 2 v

theorem doff_setTotLen {p : Mem} (hi : 5 ≤ p.ihl) (v : Nat) : (p.setTotLen v).doff = p.doff := by
  unfold doff
  rw [(sameHeader_setTotLen p v).tcpOff]
  unfold setTotLen
  rw [setBe16_out _ _ (by unfold tcpOff; omega)]

theorem setDoff_self (p : Mem) : p.setDoff p.doff = p := by
  have hlt := doff_lt p
  funext i
  unfold setDoff
  by_cases hi : i = p.tcpOff + 12
  · subst hi
    rw [set_self]
    apply UInt8.toNat_inj.1
    rw [UInt8.toNat_ofNat']
    unfold doff at hlt ⊢
    omega
  · rw [set_ne _ _ hi]

theorem sameHeader_setDoff (p : Mem) (v : Nat) : SameHeader p (p.setDoff v) := by
  intro i _ _ _ hd
  exact set_ne _ _ hd

theorem doff_setDoff (p : Mem) (v : Nat) : (p.setDoff v).doff = v % 16 := by
  unfold doff
  rw [(sameHeader_setDoff p v).tcpOff]
  unfold setDoff
  rw [set_self, UInt8.toNat_ofNat']
  omega

theorem totLen_setDoff (p : Mem) (v : Nat) : (p.setDoff v).totLen = p.totLen :=
  be16_congr fun i h₁ h₂ => set_ne _ _ (by unfold tcpOff; omega)

/-! ## The shape of a packet -/

/-- The packet has `D` words of TCP header, with the options `os`, and then the data `d`. -/
structure Shows (p : Mem) (D : Nat) (os : List Opt) (d : List UInt8) : Prop where
  ihl : 5 ≤ p.ihl
  doff : p.doff = D
  five_le : 5 ≤ D
  area : Area p p.optOff (4 * D - 20) os
  totLen : p.totLen = (4 * p.ihl + 4 * D + d.length) % 65536
  data : p.Holds (p.tcpOff + 4 * D) d

/-- A well-formed IPv4/TCP packet: both header lengths are at least five words, the total length
covers the headers, and the option area holds NOPs and kind/length options, then zeros. -/
structure WellFormed (p : Mem) (os : List Opt) : Prop where
  ihl : 5 ≤ p.ihl
  doff : 5 ≤ p.doff
  totLen : 4 * p.ihl + 4 * p.doff ≤ p.totLen
  area : Area p p.optOff (4 * p.doff - 20) os

instance (p : Mem) (os : List Opt) : Decidable (WellFormed p os) :=
  decidable_of_iff (5 ≤ p.ihl ∧ 5 ≤ p.doff ∧ 4 * p.ihl + 4 * p.doff ≤ p.totLen ∧
      Area p p.optOff (4 * p.doff - 20) os)
    ⟨fun h => ⟨h.1, h.2.1, h.2.2.1, h.2.2.2⟩, fun h => ⟨h.ihl, h.doff, h.totLen, h.area⟩⟩

theorem WellFormed.shows {p : Mem} {os : List Opt} (h : WellFormed p os) (d : List UInt8)
    (hd : p.read p.dataOff (p.totLen - 4 * p.ihl - 4 * p.doff) = d) : Shows p p.doff os d := by
  subst hd
  have := h.totLen
  have := totLen_lt p
  refine ⟨h.ihl, rfl, h.doff, h.area, ?_, holds_read _ _ _⟩
  rw [length_read]
  omega

namespace Shows

variable {p p' : Mem} {D : Nat} {os : List Opt} {d : List UInt8}

theorem doff_lt (h : Shows p D os d) : D < 16 := by
  rw [← h.doff]
  exact Opennop.doff_lt p

theorem areaLen (h : Shows p D os d) : p.areaLen = 4 * D - 20 := by
  rw [areaLen_eq (by rw [h.doff]; exact h.five_le), h.doff]

theorem area_lt (h : Shows p D os d) : 4 * D - 20 < 256 := by
  have := h.doff_lt
  omega

theorem dataOff (h : Shows p D os d) : p.dataOff = p.tcpOff + 4 * D := by
  unfold Mem.dataOff
  rw [h.doff]

theorem dataOff_eq (h : Shows p D os d) : p.dataOff = p.optOff + (4 * D - 20) := by
  have h5 := h.five_le
  rw [h.dataOff]
  unfold optOff
  omega

theorem used_le (h : Shows p D os d) : used os ≤ 4 * D - 20 := by
  have := h.area.fits
  rw [length_encode_eq] at this
  omega

theorem payload_len (h : Shows p D os d) (ht : 4 * p.ihl + 4 * D + d.length < 65536) :
    p.totLen - 4 * p.ihl - 4 * p.doff = d.length := by
  rw [h.totLen, h.doff, Nat.mod_eq_of_lt ht]
  omega

theorem dataLen (h : Shows p D os d) (hd : d.length < 65536) : p.dataLen = d.length := by
  unfold Mem.dataLen
  rw [h.totLen, h.doff]
  omega

theorem rewrite (h : Shows p D os d) {os' : List Opt}
    (hA : Area p' p.optOff (4 * D - 20) os') (hs : SameOutside p p' p.optOff (4 * D - 20)) :
    Shows p' D os' d ∧ SameHeader p p' := by
  obtain ⟨hh, hdoff, htot⟩ := sameHeader_of_below fun i hi => hs i (.inl hi)
  have := h.five_le
  refine ⟨⟨hh.ihl.symm ▸ h.ihl, hdoff.trans h.doff, h.five_le, by rwa [hh.optOff], ?_, ?_⟩, hh⟩
  · rw [htot, hh.ihl, h.totLen]
  · rw [hh.tcpOff]
    exact hs.holds h.data (.inr (by unfold Mem.optOff; omega))

end Shows

end Opennop
