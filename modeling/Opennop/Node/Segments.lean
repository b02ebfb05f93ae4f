import Opennop.Node.Accelerated
import Opennop.Packet.Compressed
import Opennop.Packet.Tagged

/-!
# How long an optimized segment is

The fetcher lowers the MSS of a connection by 60 bytes, so that what the worker adds to a segment
fits. The worker adds the tag and, with compressed data, the flag. The options stay within their 40
bytes and the data does not grow, so that 40 bytes are enough, as long as the total length does not
outgrow its 16 bits.
-/

namespace Opennop

open Mem

def Mem.segmentLen (p : Mem) : Nat := p.totLen - 4 * p.ihl - 20

/-- What the MSS reduction has to cover. -/
structure Covered (p p' : Mem) : Prop where
  doff : p'.doff ≤ 15
  lengths : 4 * p'.ihl + 4 * p'.doff ≤ p'.totLen
  grown : p'.segmentLen ≤ p.segmentLen + 40
  lowered : ∀ m, 60 ≤ m → p.segmentLen ≤ m - 60 → p'.segmentLen ≤ m

/-- The words that the option area grows by for the tag. -/
def tagWords (p : Mem) (os : List Opt) : Nat := dwords (12 - (4 * p.doff - 20 - used os))

/-- The word that it grows by for the flag: none, if there is a flag to overwrite, if the tag has
left room, or if the flag does not fit. -/
def flagWords (p : Mem) (os : List Opt) : Nat :=
  if firstOfKindLen compressed 3 os = none ∧ 4 * p.doff - 20 < used os + 12 ∧ used os + 15 ≤ 40 then
    dwords (15 - (4 * p.doff - 20 - used os)) - tagWords p os
  else 0

theorem flagWords_le_one (p : Mem) (os : List Opt) : flagWords p os ≤ 1 := by
  unfold flagWords tagWords
  rw [dwords_eq, dwords_eq]
  split <;> omega

variable {p : Mem} {os : List Opt}

theorem covered_of_shows {p' : Mem} {D : Nat} {os' : List Opt} {d : List UInt8}
    (h : WellFormed p os) (h' : Shows p' D os' d) (hh : p'.ihl = p.ihl)
    (hfits : 4 * p.ihl + 4 * D + d.length < 65536) (hd : d.length ≤ p.payload.length) :
    Covered p p' := by
  have hlen := h.payload_shows.2
  have hD := h'.doff_lt
  have hdoff := h.doff
  have htot : p'.totLen = 4 * p.ihl + 4 * D + d.length := by
    rw [h'.totLen, hh, Nat.mod_eq_of_lt hfits]
  have hgrown : p'.segmentLen ≤ p.segmentLen + 40 := by
    unfold Mem.segmentLen
    omega
  refine ⟨?_, ?_, hgrown, fun m hm hle => by omega⟩
  · rw [h'.doff]
    omega
  · rw [h'.doff, htot, hh]
    omega

theorem Covered.fits {p' : Mem} {D : Nat} {os' : List Opt} {d : List UInt8} (hc : Covered p p')
    (h' : Shows p' D os' d) (hd : d.length < 65536) : 4 * p'.ihl + 4 * D + d.length < 65536 := by
  have hD := h'.doff_lt
  have hi := ihl_lt p'
  have hlengths := hc.lengths
  rw [h'.doff, h'.totLen] at hlengths
  omega

theorem firstOfKindLen_tagged (os : List Opt) (x : List UInt8) :
    firstOfKindLen compressed 3 (squeezed os ++ [.opt nod x]) = firstOfKindLen compressed 3 os := by
  induction os with
  | nil => rfl
  | cons o os ih =>
    unfold firstOfKindLen at ih ⊢
    cases o with
    | nop => rw [squeezed_nop, ih, List.find?_cons_of_neg (by decide)]
    | opt k d => rw [squeezed_opt, List.cons_append, List.find?_cons, List.find?_cons, ih]

/-- How far the flag takes the options `os'` of a packet with `D` words of header. -/
theorem setOption_flag_fst (D : Nat) (os' : List Opt) : (setOption compressed [1] D os').1 =
    D + if firstOfKindLen compressed 3 os' = none ∧
      used os' + 3 ≤ 40 then dwords (3 - (4 * D - 20 - used os'))
      else 0 := by
  rw [setOption_flag]
  cases firstOfKindLen compressed 3 os' with
  | some o => simp
  | none =>
    rw [Option.isSome_none, if_neg (by simp)]
    by_cases hfit : used os' + 3 ≤ 40
    · rw [if_pos hfit, if_pos ⟨rfl, hfit⟩]
      rfl
    · rw [if_neg hfit, if_neg fun h => hfit h.2]
      rfl

theorem setTag_cases (env : Env) (h : WellFormed p os) (hf : firstOfKind nod os = none)
    (hused : used os ≤ 28) :
    (∃ p' os', setTag env p = .ok p' ∧ Shows p' (p.doff + tagWords p os) os' p.payload ∧
    SameHeader p p' ∧ (setOption compressed [1] (p.doff + tagWords p os) os').1 =
      p.doff + tagWords p os + flagWords p os) ∨
    setTag env p = .error .segv ∧ 65536 ≤ p.totLen + 4 * tagWords p os := by
  obtain ⟨hs, hlen⟩ := h.payload_shows
  have hlt := totLen_lt p
  have hu := hs.used_le
  have h5 := h.doff
  by_cases hfull : 4 * p.doff - 20 < used os + 12
  · by_cases hover : 65536 ≤ 4 * p.ihl + 4 * grown p.doff (used os) 8 + p.payload.length
    · refine .inr ⟨setNodHeaderData_fault hs (by omega) hf env.id.length_bytes (by omega) hover, ?_⟩
      unfold grown at hover
      unfold tagWords
      rw [dwords_eq] at hover ⊢
      omega
    · obtain ⟨p', hset, h', hh⟩ :=
        setNodHeaderData_grow env.gap hs (by omega) hf env.id.length_bytes (by omega)
        hfull (by omega)
      refine .inl ⟨p', _, hset, h', hh, ?_⟩
      have htag : used (squeezed os ++ [tag env.id.bytes]) = used os + 12 := used_last os nod _
      rw [setOption_flag_fst, htag, tag, firstOfKindLen_tagged]
      unfold flagWords tagWords
      rw [dwords_eq, dwords_eq, dwords_eq]
      by_cases hflag : firstOfKindLen compressed 3 os = none ∧ used os + 12 + 3 ≤ 40
      · rw [if_pos hflag, if_pos ⟨hflag.1, hfull, hflag.2⟩]
        omega
      · rw [if_neg hflag, if_neg fun h => hflag ⟨h.1, h.2.2⟩]
  · obtain ⟨p', hset, h', hh⟩ :=
      setNodHeaderData_free env.gap hs (by omega) hf env.id.length_bytes (by omega)
      (by omega)
    have hzero : tagWords p os = 0 := by
      unfold tagWords
      rw [dwords_eq]
      omega
    refine .inl ⟨p', _, hset, by rwa [hzero], hh, ?_⟩
    have hflag : flagWords p os = 0 := if_neg fun hflag => hfull hflag.2.1
    rw [setOption_flag_fst, used_header, hzero, hflag, dwords_eq]
    split <;> omega

def tailQlz : Qlz := ⟨fun x => x.drop 1, fun _ => []⟩

def tailEnv : Env where
  running := true
  id := ⟨1, 2, 3, 4⟩
  neighbors := []
  gap := 0
  compression := true
  stateCompress := true
  stateDecompress := true
  qlz := tailQlz

theorem compressed_covered (env : Env) {p₁ : Mem} {os₁ : List Opt} (h : WellFormed p os)
    (h₁ : Shows p₁ (p.doff + tagWords p os) os₁ p.payload) (hh : SameHeader p p₁)
    (hflag : (setOption compressed [1] (p.doff + tagWords p os) os₁).1 =
    p.doff + tagWords p os + flagWords p os)
    (hfits : p.totLen + 4 * tagWords p os + 3 * flagWords p os < 65536) :
    ∃ p₂ r, tcpCompress env.qlz env.compression true env.stateCompress p₁ = .ok (p₂, r) ∧
      Covered p p₂ := by
  have hlen := h.payload_shows.2
  have hone := flagWords_le_one p os
  by_cases ha : Attempted env.qlz env.compression true env.stateCompress p₁
  · obtain ⟨p₂, hp₂, h₂, -, hends⟩ := tcpCompress_shows h₁ (by rw [hh.ihl]; omega) ha
    have hless := ha.2.2.2.2
    rw [qlzCompress_eq h₁ (by omega), h₁.dataLen (by omega), ← length_sent] at hless
    refine ⟨p₂, 1, hp₂, covered_of_shows h h₂ (hends.ihl.trans hh.ihl) ?_ (by omega)⟩
    rw [hflag]
    omega
  · obtain ⟨r, hr⟩ := tcpCompress_unchanged ha
    exact ⟨p₁, r, hr, covered_of_shows h h₁ hh.ihl (by omega) le_rfl⟩

/-- **What the MSS reduction covers.** For every well-formed segment without a tag and every result
of the compressor, the optimized segment is covered, exactly when the total length with the tag, and
with the flag on data that one byte less is left of, is below 2^16. -/
theorem optimizeSteps_covered_iff (p : Mem) (os : List Opt) (h : WellFormed p os)
    (htcp : p.protocol = ipprotoTcp) (hdata : p.payload ≠ []) (hf : firstOfKind nod os = none)
    (hused : used os ≤ 28) :
    (∀ env compress, ∃ p', optimizeSteps env compress p = .ok p' ∧ Covered p p') ↔
      p.totLen + 4 * tagWords p os + 3 * flagWords p os < 65536 := by
  have hlen := h.payload_shows.2
  have hpay := length_payload_lt p
  have hpos := List.length_pos_iff.2 hdata
  constructor
  · intro hall
    obtain ⟨p₁, os₁, hset, h₁, hh, hflag⟩ | ⟨hfault, -⟩ := setTag_cases tailEnv h hf hused
    · obtain ⟨p', hp', hcovered⟩ := hall tailEnv false
      rw [optimizeSteps, hset, ok_bind] at hp'
      obtain rfl : p₁ = p' := Except.ok.inj hp'
      have htagged := hcovered.fits h₁ hpay
      rw [hh.ihl] at htagged
      obtain ⟨p₂, hp₂, hcovered₂⟩ := hall tailEnv true
      have hattempted : Attempted tailQlz true true true p₁ := by
        refine ⟨⟨rfl, rfl⟩, (hh.protocol h.ihl).trans htcp, ?_, rfl, ?_⟩
        · rwa [h₁.dataLen hpay]
        · rw [qlzCompress_eq h₁ hpay, h₁.dataLen hpay, tailQlz, List.length_drop]
          omega
      obtain ⟨q₂, hq₂, h₂, -, hends⟩ :=
        tcpCompress_shows h₁ (by rw [hh.ihl]; exact htagged) hattempted
      rw [optimizeSteps, hset, ok_bind, if_pos rfl] at hp₂
      obtain ⟨r, hr, hp₂⟩ := bind_eq_ok.1 hp₂
      obtain rfl : (q₂, 1) = r := Except.ok.inj (hq₂.symm.trans hr)
      obtain rfl : q₂ = p₂ := Except.ok.inj hp₂
      have hshort : (sent (tailQlz.compress p.payload)).length = p.payload.length - 1 := by
        rw [length_sent, tailQlz, List.length_drop]
        omega
      have hflagged := hcovered₂.fits h₂ (by omega)
      rw [hends.ihl, hh.ihl, hflag, hshort] at hflagged
      omega
    · obtain ⟨p', hp', -⟩ := hall tailEnv false
      rw [optimizeSteps, hfault] at hp'
      exact nomatch hp'
  · intro hfits env compress
    obtain ⟨p₁, os₁, hset, h₁, hh, hflag⟩ | ⟨-, hover⟩ := setTag_cases env h hf hused
    · rw [optimizeSteps, hset, ok_bind]
      cases compress with
      | false => exact ⟨p₁, rfl, covered_of_shows h h₁ hh.ihl (by omega) le_rfl⟩
      | true =>
        obtain ⟨p₂, r, hp₂, hcovered⟩ := compressed_covered env h h₁ hh hflag hfits
        exact ⟨p₂, by rw [if_pos rfl, hp₂]; rfl, hcovered⟩
    · omega

theorem optimizeSteps_covered_segment : WellFormed (segment []) [] ∧
    ∃ p', optimizeSteps tailEnv true (segment []) = .ok p' ∧ Covered (segment []) p' :=
  ⟨by decide,
    (optimizeSteps_covered_iff (segment []) [] (by decide) (by decide) (by decide) rfl
      (by decide)).2 (by decide) tailEnv true⟩

/-- The longest segment does not get through its tag. -/
theorem optimizeSteps_longest_fails :
    WellFormed longestSegment [] ∧ longestSegment.protocol = ipprotoTcp ∧
    longestSegment.payload ≠ [] ∧ firstOfKind nod [] = none ∧ used [] ≤ 28 ∧
    optimizeSteps tailEnv false longestSegment = .error .segv ∧
    ¬ ∃ p', optimizeSteps tailEnv false longestSegment = .ok p' ∧ Covered longestSegment p' := by
  have hwf : WellFormed longestSegment [] := by decide
  obtain ⟨hs, hlen⟩ := hwf.payload_shows
  have htot : longestSegment.totLen = 65535 := by decide
  have hihl : longestSegment.ihl = 5 := by decide
  have hdoff : longestSegment.doff = 5 := by decide
  have hpay : longestSegment.payload ≠ [] := by
    rw [← List.length_pos_iff]
    omega
  have htag : setTag tailEnv longestSegment = .error .segv := by
    refine setNodHeaderData_fault hs (by omega) rfl tailEnv.id.length_bytes (by decide) ?_
    have hgrown : grown longestSegment.doff (used []) 8 = 7 := by decide
    omega
  have hsteps : optimizeSteps tailEnv false longestSegment = .error .segv := by
    rw [optimizeSteps, htag]
    rfl
  refine ⟨hwf, by decide, hpay, rfl, by decide, hsteps, ?_⟩
  rintro ⟨p', hp', -⟩
  exact nomatch hsteps.symm.trans hp'

end Opennop
