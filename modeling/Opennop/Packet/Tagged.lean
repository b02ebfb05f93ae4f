import Opennop.Packet.Compressed
import Opennop.Packet.Lengths
import Opennop.Packet.Nod

/-!
# What a tag leaves alone

`set_nod_header_data` moves the data and rewrites the options. On a well-formed packet without a tag
and with room for one it changes nothing else: the data, the other options in their order and the
other header fields are as before. The one limit is the 16-bit total length.
-/

namespace Opennop

open Mem

/-- `p'` is `p` up to its NOPs, one option 33 after the others, and the two lengths that tell of
it. -/
structure TagsOnly (p p' : Mem) (os : List Opt) : Prop where
  payload : p'.payload = p.payload
  header : SameHeader p p'
  reserved : (p' (p.tcpOff + 12)).toNat % 16 = (p (p.tcpOff + 12)).toNat % 16
  lengths : (p'.totLen : Int) - 4 * p'.doff = p.totLen - 4 * p.doff
  doff : 5 ≤ p'.doff ∧ p'.doff ≤ 15
  area : ∃ data, Area p' p'.optOff (4 * p'.doff - 20) (squeezed os ++ [.opt nod data])

/-- `set_nod_header_data` returns, and has only tagged the packet. -/
def KeepsRest (gap : Int) (p : Mem) (os : List Opt) (id : List UInt8) : Prop :=
  ∃ p', setNodHeaderData gap p onop id = .ok p' ∧ TagsOnly p p' os

variable {gap : Int} {p : Mem} {D : Nat} {os : List Opt} {d : List UInt8}

/-- A packet that shows the old data after the new options, within its length field. -/
theorem tagsOnly_of_shows {p' : Mem} {D' : Nat} {data : List UInt8} (h : Shows p D os d)
    (ht : 4 * p.ihl + 4 * D + d.length < 65536)
    (h' : Shows p' D' (squeezed os ++ [.opt nod data]) d)
    (ht' : 4 * p.ihl + 4 * D' + d.length < 65536) (hh : SameHeader p p')
    (hr : (p' (p.tcpOff + 12)).toNat % 16 = (p (p.tcpOff + 12)).toNat % 16) : TagsOnly p p' os where
  payload := by
    rw [h.payload ht, h'.payload (by rw [hh.ihl]; exact ht')]
  header := hh
  reserved := hr
  lengths := by
    rw [h.totLen, h'.totLen, hh.ihl, h.doff, h'.doff, Nat.mod_eq_of_lt ht, Nat.mod_eq_of_lt ht']
    omega
  doff := by
    rw [h'.doff]
    exact ⟨h'.five_le, Nat.le_of_lt_succ h'.doff_lt⟩
  area := ⟨data, by rw [h'.doff]; exact h'.area⟩

/-- **Tagging keeps everything else exactly when the longer packet fits its length field.** -/
theorem keepsRest_iff (gap : Int) (p : Mem) (os : List Opt) (h : WellFormed p os)
    (hf : firstOfKind nod os = none) (hfit : used os + 12 ≤ 40) (id : List UInt8)
    (hid : id.length = 4) :
    KeepsRest gap p os id ↔ p.totLen + 4 * dwords (12 - (4 * p.doff - 20 - used os)) < 65536 := by
  have hs := h.shows _ rfl
  have htot := h.totLen
  have hlt := totLen_lt p
  have hlen : 4 * p.ihl + 4 * p.doff +
      (p.read p.dataOff (p.totLen - 4 * p.ihl - 4 * p.doff)).length = p.totLen := by
    rw [length_read]
    omega
  generalize p.read p.dataOff (p.totLen - 4 * p.ihl - 4 * p.doff) = d at hs hlen
  have hg : grown p.doff (used os) 12 = p.doff + dwords (12 - (4 * p.doff - 20 - used os)) := rfl
  have ht : 4 * p.ihl + 4 * p.doff + d.length < 65536 := by omega
  have hreserved : Post (setNodHeaderData gap p onop id) fun p' => ∃ g, Grown p p' g :=
    setNodHeaderData_grown gap p h.doff (by decide) (by omega)
  by_cases hfull : 4 * p.doff - 20 < used os + 12
  · have hle : grown p.doff (used os) 8 ≤ grown p.doff (used os) 12 := by
      unfold grown
      rw [dwords_eq, dwords_eq]
      omega
    by_cases hover : 65536 ≤ 4 * p.ihl + 4 * grown p.doff (used os) 8 + d.length
    · -- the second stage takes the packet past its length field
      constructor
      · rintro ⟨p', hset, -⟩
        rw [setNodHeaderData_fault hs ht hf hid hfit hover] at hset
        cases hset
      · intro hlt
        omega
    · obtain ⟨p', hset, h', hh⟩ := setNodHeaderData_grow gap hs ht hf hid hfit hfull (by omega)
      obtain ⟨g, hgrown⟩ := hreserved p' hset
      constructor
      · rintro ⟨q, hset', hq⟩
        obtain rfl : p' = q := Except.ok.inj (hset.symm.trans hset')
        -- the third stage wraps the total length around
        have hlengths := hq.lengths
        have htot' := h'.totLen
        rw [h'.doff, hg] at hlengths
        rw [hh.ihl, hg] at htot'
        omega
      · intro hlt
        exact ⟨p', hset, tagsOnly_of_shows hs ht h' (by omega) hh hgrown.reserved⟩
  · obtain ⟨p', hset, h', hh⟩ := setNodHeaderData_free gap hs ht hf hid hfit (by omega)
    obtain ⟨g, hgrown⟩ := hreserved p' hset
    have hzero : dwords (12 - (4 * p.doff - 20 - used os)) = 0 := by
      rw [Nat.sub_eq_zero_of_le (by omega)]
      rfl
    rw [hzero]
    refine ⟨fun _ => by omega, fun _ => ?_⟩
    exact ⟨p', hset, tagsOnly_of_shows hs ht h' ht hh hgrown.reserved⟩

theorem keepsRest_bare :
    WellFormed (bareSegment 3) [] ∧ KeepsRest 0 (bareSegment 3) [] [1, 2, 3, 4] :=
  ⟨by decide, (keepsRest_iff 0 (bareSegment 3) [] (by decide) rfl (by decide) [1, 2, 3, 4] rfl).2
    (by decide)⟩

def longestSegment : Mem :=
  Mem.ofList [0x45, 0, 0xff, 0xff, 0, 0, 0, 0, 64, 6, 0, 0, 10, 0, 0, 1, 10, 0, 0, 2,
    0x30, 0x39, 0, 80, 0, 0, 0, 1, 0, 0, 0, 0, 0x50, 16, 0xff, 0xff, 0, 0, 0, 0]

/-- Tagging the longest segment is a `memmove` with a negative length. -/
theorem not_keepsRest_longest : WellFormed longestSegment [] ∧ firstOfKind nod [] = none ∧
    used [] + 12 ≤ 40 ∧ setNodHeaderData 0 longestSegment onop [1, 2, 3, 4] = .error .segv ∧
    ¬ KeepsRest 0 longestSegment [] [1, 2, 3, 4] := by
  have hwf : WellFormed longestSegment [] := by decide
  have hset : setNodHeaderData 0 longestSegment onop [1, 2, 3, 4] = .error .segv := by
    refine setNodHeaderData_fault (hwf.shows _ rfl) ?_ rfl rfl (by decide) ?_
    · rw [length_read]
      decide
    · rw [length_read]
      decide
  refine ⟨hwf, rfl, by decide, hset, ?_⟩
  rintro ⟨p', hset', -⟩
  rw [hset] at hset'
  cases hset'

end Opennop
