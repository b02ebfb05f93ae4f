import Opennop.Packet.Layout

/-!
# The option functions on well-formed packets

One lemma for each function of `tcpoptions.c` that looks options up, removes NOPs or makes room:
what it returns on a packet with given options and data, and what the packet shows afterwards.
-/

namespace Opennop

open Mem

variable {p : Mem} {D : Nat} {os : List Opt} {d : List UInt8}

/-! ## Looking options up -/

theorem getTcpopt_kind (h : Shows p D os d) {k : UInt8} (hk : 2 ≤ k) :
    (firstOfKind k os = none ∧ getTcpopt p k = .ok none) ∨
      ∃ pre o post, os = pre ++ o :: post ∧ firstOfKind k os = some o ∧
        getTcpopt p k = .ok (some (p.optOff + (encode pre).length)) := by
  have hz : ∀ i, p (p.optOff + i) = 0 → (p (p.optOff + i) == k) = false := by
    intro i hi
    rw [hi]
    refine beq_eq_false_iff_ne.2 ?_
    rintro rfl
    exact absurd hk (by decide)
  unfold getTcpopt
  rw [h.areaLen]
  rcases scan_find h.area (decides_kind p p.optOff _ k) h.area_lt hz with
    ⟨hf, hs⟩ | ⟨pre, o, post, hos, hf, -, hs⟩
  · exact .inl ⟨hf, by rw [hs]; rfl⟩
  · exact .inr ⟨pre, o, post, hos, hf, by rw [hs]; rfl⟩

theorem getTcpopt_absent (h : Shows p D os d) {k : UInt8} (hk : 2 ≤ k)
    (hf : firstOfKind k os = none) : getTcpopt p k = .ok none := by
  rcases getTcpopt_kind h hk with ⟨-, hg⟩ | ⟨_, o, _, -, hf', -⟩
  · exact hg
  · rw [hf] at hf'
    cases hf'

theorem getTcpopt_at {pre post : List Opt} {o : Opt} (h : Shows p D (pre ++ o :: post) d)
    {k : UInt8} (hpre : firstOfKind k pre = none) (ho : o.kind = k) :
    getTcpopt p k = .ok (some (p.optOff + (encode pre).length)) := by
  unfold getTcpopt
  rw [h.areaLen, scan_first h.area (decides_kind p p.optOff _ k) h.area_lt
    (fun a ha => by simpa using List.find?_eq_none.1 hpre a ha) (by simpa using ho)]
  rfl

theorem getTcpopt_eol (h : Shows p D os d) :
    getTcpopt p tcpoptEol = .ok (if (encode os).length < 4 * D - 20 then
      some (p.optOff + (encode os).length) else none) := by
  unfold getTcpopt
  rw [h.areaLen, scan_eol h.area (decides_eol p p.optOff _) h.area_lt (fun i hi => by rw [hi]; rfl)]
  by_cases hlt : (encode os).length < 4 * D - 20
  · simp only [if_pos hlt, ok_bind, Option.map_some, pure_eq_ok]
  · simp only [if_neg hlt, ok_bind, Option.map_none, pure_eq_ok]

/-! ## Removing NOPs -/

theorem Shows.nil_of_five (h : Shows p 5 os d) : os = [] := by
  have h₁ := h.area.fits
  have h₂ := length_le_encode os
  exact List.length_eq_zero_iff.1 (by omega)

/-- Bytes of the option area hold neither the data offset nor the length of the IP header. -/
theorem Mem.SameOutside.offsets {p' : Mem} {n : Nat} (h : SameOutside p p' p.optOff n) :
    p'.optOff = p.optOff ∧ p'.doff = p.doff ∧ p'.areaLen = p.areaLen := by
  obtain ⟨hh, hdoff, -⟩ := sameHeader_of_below fun i hi => h i (.inl hi)
  refine ⟨hh.optOff, hdoff, ?_⟩
  unfold areaLen
  rw [hdoff]

section Area

variable (hD : 5 < p.doff) (h : Area p p.optOff (4 * p.doff - 20) os)
include hD h

theorem removeTcpoptNop_area :
    ∃ p', removeTcpoptNop p = .ok p' ∧ Area p' p.optOff (4 * p.doff - 20) (squeezed os) ∧
      SameOutside p p' p.optOff (4 * p.doff - 20) := by
  have hlt := doff_lt p
  unfold removeTcpoptNop
  rw [if_pos hD, areaLen_eq (Nat.le_of_lt hD)]
  exact removeNop_loop (by omega) h (by unfold nopFuel; omega)

theorem squeeze_area :
    ∃ p', squeeze p = .ok (p', 4 * p.doff - 20 - used os) ∧
      Area p' p.optOff (4 * p.doff - 20) (squeezed os) ∧
        SameOutside p p' p.optOff (4 * p.doff - 20) := by
  have hlt := doff_lt p
  unfold squeeze
  rw [if_pos hD, areaLen_eq (Nat.le_of_lt hD)]
  exact squeeze_loop (by omega) h (by unfold nopFuel; omega)

theorem getTcpoptFreespace_area :
    ∃ p', getTcpoptFreespace p = .ok (p', 4 * p.doff - 20 - used os) ∧
      Area p' p.optOff (4 * p.doff - 20) (squeezed os) ∧
        SameOutside p p' p.optOff (4 * p.doff - 20) := by
  have hlt := doff_lt p
  obtain ⟨p', hp', hA, hs⟩ := removeTcpoptNop_area hD h
  obtain ⟨hopt, hdoff, hlen⟩ := hs.offsets
  refine ⟨p', ?_, hA, hs⟩
  have hfits := hA.fits
  rw [length_encode_squeezed] at hfits
  unfold getTcpoptFreespace
  rw [hp', ok_bind, hdoff, if_pos hD, hopt, hlen, areaLen_eq (Nat.le_of_lt hD),
    scan_eol hA (decides_eol p' p.optOff _) (by omega) (fun i hi => by rw [hi]; rfl),
    length_encode_squeezed]
  by_cases hfree : used os < 4 * p.doff - 20
  · rw [if_pos hfree, ok_bind]
    dsimp only
    rw [Nat.mod_eq_of_lt (by omega), pure_eq_ok]
  · rw [if_neg hfree, ok_bind]
    dsimp only
    rw [Nat.sub_eq_zero_of_le (Nat.not_lt.1 hfree), pure_eq_ok]

end Area

/-- **Both ways of removing the NOPs agree.** `get_tcpopt_freespace`, which walks over the whole
area and then scans it again, and the loop of `__set_tcp_option`, which stops at the first zero,
find the same free space and leave the same packet: the options without the NOPs, then zeros, and
nothing else is changed. -/
theorem getTcpoptFreespace_eq_squeeze (hD : 5 < p.doff)
    (h : Area p p.optOff (4 * p.doff - 20) os) :
    ∃ p', getTcpoptFreespace p = .ok (p', 4 * p.doff - 20 - used os) ∧
      squeeze p = .ok (p', 4 * p.doff - 20 - used os) ∧
      Area p' p.optOff (4 * p.doff - 20) (squeezed os) ∧
      SameOutside p p' p.optOff (4 * p.doff - 20) := by
  obtain ⟨p₁, hp₁, hA₁, hs₁⟩ := getTcpoptFreespace_area hD h
  obtain ⟨p₂, hp₂, hA₂, hs₂⟩ := squeeze_area hD h
  obtain rfl := hA₁.ext_outside hA₂ hs₁ hs₂
  exact ⟨p₁, hp₁, hp₂, hA₁, hs₁⟩

/-- A packet with twelve bytes of options: NOPs around two options with zeros and ones for data. -/
def paddedPacket : Mem :=
  ofList [0x45, 0, 0, 52, 0, 0, 0, 0, 64, 6, 0, 0, 10, 0, 0, 1, 10, 0, 0, 2,
    0, 1, 0, 2, 0, 0, 0, 0, 0, 0, 0, 0, 0x80, 0x10, 0, 0, 0, 0, 0, 0,
    1, 3, 3, 0, 1, 1, 8, 4, 1, 0, 1, 0]

/-- The NOPs of the padded packet leave four bytes and its last zero one. -/
theorem getTcpoptFreespace_eq_squeeze_padded :
    Area paddedPacket 40 12 [.nop, .opt 3 [0], .nop, .nop, .opt 8 [1, 0], .nop] ∧
    ∃ p', getTcpoptFreespace paddedPacket = .ok (p', 5) ∧ squeeze paddedPacket = .ok (p', 5) ∧
      Area p' 40 12 [.opt 3 [0], .opt 8 [1, 0]] ∧ SameOutside paddedPacket p' 40 12 := by
  have hA : Area paddedPacket 40 12 [.nop, .opt 3 [0], .nop, .nop, .opt 8 [1, 0], .nop] := by decide
  exact ⟨hA, getTcpoptFreespace_eq_squeeze (by decide) hA⟩

section Shows

variable (h : Shows p D os d)
include h

theorem Shows.eq_five (hD : ¬ 5 < p.doff) : os = [] ∧ 4 * D - 20 - used os = 0 := by
  have h5 := h.five_le
  have hdoff := h.doff
  obtain rfl : D = 5 := by omega
  exact ⟨h.nil_of_five, by omega⟩

theorem squeeze_shows :
    ∃ p', squeeze p = .ok (p', 4 * D - 20 - used os) ∧ Shows p' D (squeezed os) d ∧
      SameHeader p p' := by
  have hdoff := h.doff
  by_cases hD : 5 < p.doff
  · obtain ⟨p', hp', hA, hs⟩ := squeeze_area hD (by rw [hdoff]; exact h.area)
    rw [hdoff] at hp' hA hs
    exact ⟨p', hp', h.rewrite hA hs⟩
  · obtain ⟨rfl, hfree⟩ := h.eq_five hD
    unfold squeeze
    rw [if_neg hD, hfree]
    exact ⟨p, rfl, h, .refl p⟩

theorem getTcpoptFreespace_shows :
    ∃ p', getTcpoptFreespace p = .ok (p', 4 * D - 20 - used os) ∧ Shows p' D (squeezed os) d ∧
      SameHeader p p' := by
  have hdoff := h.doff
  by_cases hD : 5 < p.doff
  · obtain ⟨p', hp', hA, hs⟩ := getTcpoptFreespace_area hD (by rw [hdoff]; exact h.area)
    rw [hdoff] at hp' hA hs
    exact ⟨p', hp', h.rewrite hA hs⟩
  · obtain ⟨rfl, hfree⟩ := h.eq_five hD
    unfold getTcpoptFreespace removeTcpoptNop
    rw [if_neg hD, ok_bind, if_neg hD, hfree]
    exact ⟨p, rfl, h, .refl p⟩

end Shows

/-! ## Making room -/

theorem dwords_eq (n : Nat) : dwords n = (n + 3) / 4 := by
  unfold dwords
  split <;> omega

theorem getTcpoptAddoffNeeded_shows (h : Shows p D os d) (bytes : Nat) :
    ∃ p', getTcpoptAddoffNeeded p bytes = .ok (p', dwords (bytes - (4 * D - 20 - used os))) ∧
      Shows p' D (squeezed os) d ∧ SameHeader p p' := by
  obtain ⟨p', hp', h', hh⟩ := getTcpoptFreespace_shows h
  refine ⟨p', ?_, h', hh⟩
  unfold getTcpoptAddoffNeeded
  rw [hp', ok_bind]
  by_cases hlt : 4 * D - 20 - used os < bytes
  · simp only [if_pos hlt, pure_eq_ok]
  · simp only [if_neg hlt, pure_eq_ok]
    rw [Nat.sub_eq_zero_of_le (by omega)]
    rfl

theorem zeroGap_eq {p : Mem} (hd : 5 ≤ p.doff) (addoff : Nat) :
    zeroGap p addoff = p.fill p.dataOff (4 * addoff) 0 := by
  unfold zeroGap
  generalize 4 * addoff = n
  induction n with
  | zero =>
    funext i
    rw [List.range_zero, List.foldl_nil, fill_out _ _ (by omega)]
  | succ n ih =>
    rw [List.range_succ, List.foldl_append, ih, List.foldl_cons, List.foldl_nil]
    have hbelow : ∀ i < p.optOff, p.fill p.dataOff n 0 i = p i := fun i hi =>
      fill_out _ _ (.inl (by unfold dataOff; unfold optOff at hi; omega))
    obtain ⟨hh, hdoff, -⟩ := sameHeader_of_below hbelow
    rw [hh.dataOff hdoff]
    funext i
    by_cases h₁ : i = p.dataOff + n
    · subst h₁
      rw [set_self, fill_in _ _ (by omega) (by omega)]
    · rw [set_ne _ _ h₁]
      by_cases h₂ : p.dataOff ≤ i ∧ i < p.dataOff + n
      · rw [fill_in _ _ h₂.1 h₂.2, fill_in _ _ h₂.1 (by omega)]
      · rw [fill_out _ _ (by omega), fill_out _ _ (by omega)]

theorem openGap_holds (h : Shows p D os d) (ht : 4 * p.ihl + 4 * D + d.length < 65536)
    (addoff : Nat) : ∃ p', openGap p addoff = .ok p' ∧ (∀ i < p.dataOff, p' i = p i) ∧
      p'.Holds p.dataOff (List.replicate (4 * addoff) 0 ++ d) := by
  have hlen := h.payload_len ht
  have h5 := h.five_le
  have htot := h.totLen
  rw [Nat.mod_eq_of_lt ht] at htot
  have hbelow : ∀ i < p.dataOff, p.move (p.dataOff + 4 * addoff) p.dataOff d.length i = p i :=
    fun i hi => move_out _ (by omega)
  obtain ⟨hh, hdoff, -⟩ := sameHeader_of_below fun i hi => hbelow i (by
    rw [h.dataOff]
    unfold optOff at hi
    omega)
  refine ⟨_, by
    unfold openGap
    rw [if_neg (by rw [h.doff]; omega), hlen,
      zeroGap_eq (by rw [hdoff, h.doff]; exact h5)], ?_, ?_⟩
  · intro i hi
    rw [hh.dataOff hdoff, fill_out _ _ (.inl hi), hbelow i hi]
  · rw [hh.dataOff hdoff, holds_append, List.length_replicate]
    refine ⟨holds_fill _ _ _ _, ?_⟩
    have hd : p.Holds p.dataOff d := by
      rw [h.dataOff]
      exact h.data
    exact (hd.move (Nat.le_refl _)).congr fun i h₁ h₂ => fill_out _ _ (.inr h₁)

/-- A packet that has outgrown its length field cannot be grown again. -/
theorem openGap_fault (h : Shows p D os d) (ht : 65536 ≤ 4 * p.ihl + 4 * D + d.length)
    (hd : d.length < 65536) (addoff : Nat) : openGap p addoff = .error .segv := by
  have := ihl_lt p
  have := h.doff_lt
  have := h.totLen
  unfold openGap
  rw [if_pos (by rw [h.doff]; omega)]

/-! ## The shape after a change of the lengths -/

theorem shows_of_holds (hi : 5 ≤ p.ihl) (hdoff : p.doff = D) (hok : ∀ o ∈ os, o.Ok) {z : Nat}
    (hz : 20 + (encode os).length + z = 4 * D)
    (hh : p.Holds p.optOff (encode os ++ (List.replicate z 0 ++ d)))
    (ht : p.totLen = (4 * p.ihl + 4 * D + d.length) % 65536) : Shows p D os d := by
  rw [← List.append_assoc, holds_append, List.length_append, List.length_replicate,
    show p.optOff + ((encode os).length + z) = p.tcpOff + 4 * D by unfold optOff; omega] at hh
  refine ⟨hi, hdoff, by omega, ⟨hok, by omega, ?_⟩, ht, hh.2⟩
  rw [show 4 * D - 20 - (encode os).length = z by omega]
  exact hh.1

theorem resize_fields {p : Mem} (hi : 5 ≤ p.ihl) (v t : Nat) :
    SameHeader p ((p.setDoff v).setTotLen t) ∧ ((p.setDoff v).setTotLen t).doff = v % 16 ∧
      ((p.setDoff v).setTotLen t).totLen = t % 65536 ∧
      ∀ i, p.optOff ≤ i → (p.setDoff v).setTotLen t i = p i := by
  have hh := sameHeader_setDoff p v
  refine ⟨hh.trans (sameHeader_setTotLen _ t), ?_, totLen_setTotLen _ t, ?_⟩
  · rw [doff_setTotLen (by rw [hh.ihl]; exact hi), doff_setDoff]
  · intro i h
    unfold optOff at h
    unfold setTotLen setDoff
    rw [setBe16_out _ _ (by omega), set_ne _ _ (by omega)]

/-! ## `add_tcpopt_addoff` and `add_tcpopt_bytes` -/

theorem addTcpoptAddoff_zero (p : Mem) : addTcpoptAddoff p 0 = .ok (p, -1) := rfl

theorem addTcpoptAddoff_full (h : Shows p D os d) {a : Nat} (ha : 15 < D + a) :
    addTcpoptAddoff p a = .ok (p, -1) := by
  have := h.doff_lt
  unfold addTcpoptAddoff
  rw [if_neg (by omega), h.doff, if_neg (by omega)]

theorem addTcpoptAddoff_grow (h : Shows p D os d) (ht : 4 * p.ihl + 4 * D + d.length < 65536)
    {a : Nat} (ha : 0 < a) (ha' : D + a ≤ 15) :
    ∃ p', addTcpoptAddoff p a = .ok (p', 0) ∧ Shows p' (D + a) os d ∧ SameHeader p p' := by
  obtain ⟨p₁, hgap, hbelow, hholds⟩ := openGap_holds h ht a
  have h5 := h.five_le
  have hfits := h.area.fits
  have hoff := h.dataOff_eq
  obtain ⟨hh₁, hdoff₁, htot₁⟩ := sameHeader_of_below fun i hi => hbelow i (by omega)
  have hi₁ : 5 ≤ p₁.ihl := by rw [hh₁.ihl]; exact h.ihl
  obtain ⟨hh₂, hdoff₂, htot₂, habove⟩ := resize_fields hi₁ (D + a) (p₁.totLen + 4 * a)
  have hh := hh₁.trans hh₂
  refine ⟨(p₁.setDoff (D + a)).setTotLen (p₁.totLen + 4 * a), ?_, ?_, hh⟩
  · unfold addTcpoptAddoff
    rw [if_neg (by omega), if_pos (by rw [h.doff]; exact ha'), hgap, ok_bind]
    simp only [hdoff₁, h.doff, totLen_setDoff, pure_eq_ok]
  · refine shows_of_holds (z := 4 * D - 20 - (encode os).length + 4 * a)
      (by rw [hh.ihl]; exact h.ihl)
      (by rw [hdoff₂]; omega) h.area.ok (by omega) ?_ ?_
    · rw [hh.optOff, List.replicate_add, List.append_assoc, ← List.append_assoc (encode os),
        holds_append, List.length_append, List.length_replicate, Nat.add_sub_cancel' hfits, ← hoff]
      refine ⟨h.area.holds.congr fun i h₁ h₂ => ?_, hholds.congr fun i h₁ h₂ => ?_⟩
      · rw [List.length_append, List.length_replicate, Nat.add_sub_cancel' hfits, ← hoff] at h₂
        rw [habove i (by rwa [hh₁.optOff]), hbelow i h₂]
      · rw [habove i (by rw [hh₁.optOff]; omega)]
    · rw [htot₂, hh.ihl, htot₁, h.totLen]
      omega

theorem addTcpoptAddoff_fault (h : Shows p D os d) (ht : 65536 ≤ 4 * p.ihl + 4 * D + d.length)
    (hd : d.length < 65536) {a : Nat} (ha : 0 < a) (ha' : D + a ≤ 15) :
    addTcpoptAddoff p a = .error .segv := by
  unfold addTcpoptAddoff
  rw [if_neg (by omega), if_pos (by rw [h.doff]; exact ha'), openGap_fault h ht hd, error_bind]

/-- The words of TCP header after room is made for `bytes` after `u` bytes of options. -/
def grown (D u bytes : Nat) : Nat := D + dwords (bytes - (4 * D - 20 - u))

theorem grown_grown {D u a b : Nat} (h5 : 5 ≤ D) (hu : u ≤ 4 * D - 20) :
    grown (grown D u a) (u + a) b = grown D u (a + b) := by
  unfold grown
  rw [dwords_eq, dwords_eq, dwords_eq]
  omega

theorem grown_eq_self {D u bytes : Nat} (h : u + bytes ≤ 4 * D - 20) : grown D u bytes = D := by
  unfold grown
  rw [Nat.sub_eq_zero_of_le (by omega)]
  rfl

/-- Room for `bytes` more can be made exactly when the options then fit the largest area. -/
theorem room_iff {D u : Nat} (bytes : Nat) (h5 : 5 ≤ D) (hD : D < 16) (hu : u ≤ 4 * D - 20) :
    grown D u bytes ≤ 15 ↔ u + bytes ≤ 40 := by
  unfold grown
  rw [dwords_eq]
  omega

theorem room_after {D u : Nat} (bytes : Nat) (h5 : 5 ≤ D) (hu : u ≤ 4 * D - 20) :
    u + bytes ≤ 4 * grown D u bytes - 20 := by
  unfold grown
  rw [dwords_eq]
  omega

/-- `add_tcpopt_bytes` when the area has the room already: the result is that of a failure. -/
theorem addTcpoptBytes_free (h : Shows p D os d) (bytes : Nat) (hb : used os + bytes ≤ 4 * D - 20) :
    ∃ p', addTcpoptBytes p bytes = .ok (p', -1) ∧ Shows p' D (squeezed os) d ∧ SameHeader p p' := by
  obtain ⟨p', hp', h', hh⟩ := getTcpoptAddoffNeeded_shows h bytes
  refine ⟨p', ?_, h', hh⟩
  unfold addTcpoptBytes
  rw [hp', ok_bind, Nat.sub_eq_zero_of_le (by omega)]
  exact addTcpoptAddoff_zero p'

theorem addTcpoptBytes_grow (h : Shows p D os d) (bytes : Nat)
    (ht : 4 * p.ihl + 4 * D + d.length < 65536) (hb : 4 * D - 20 < used os + bytes)
    (hfit : used os + bytes ≤ 40) :
    ∃ p', addTcpoptBytes p bytes = .ok (p', 0) ∧
      Shows p' (grown D (used os) bytes) (squeezed os) d ∧ SameHeader p p' := by
  obtain ⟨p₁, hp₁, h₁, hh₁⟩ := getTcpoptAddoffNeeded_shows h bytes
  have hu := h.used_le
  have hroom := (room_iff _ h.five_le h.doff_lt hu).2 hfit
  obtain ⟨p', hp', h', hh⟩ := addTcpoptAddoff_grow h₁ (by rw [hh₁.ihl]; exact ht)
    (by rw [dwords_eq]; omega) hroom
  refine ⟨p', ?_, h', hh₁.trans hh⟩
  unfold addTcpoptBytes
  rw [hp₁, ok_bind]
  exact hp'

theorem addTcpoptBytes_fault (h : Shows p D os d) (ht : 65536 ≤ 4 * p.ihl + 4 * D + d.length)
    (hd : d.length < 65536) {bytes : Nat} (hb : 4 * D - 20 < used os + bytes)
    (hfit : used os + bytes ≤ 40) : addTcpoptBytes p bytes = .error .segv := by
  obtain ⟨p₁, hp₁, h₁, hh₁⟩ := getTcpoptAddoffNeeded_shows h bytes
  have hu := h.used_le
  have hroom := (room_iff _ h.five_le h.doff_lt hu).2 hfit
  unfold addTcpoptBytes
  rw [hp₁, ok_bind]
  exact addTcpoptAddoff_fault h₁ (by rw [hh₁.ihl]; exact ht) hd (by rw [dwords_eq]; omega) hroom

theorem addTcpoptBytes_room (h : Shows p D os d) (bytes : Nat) (hfit : used os + bytes ≤ 40)
    (ht : used os + bytes ≤ 4 * D - 20 ∨ 4 * p.ihl + 4 * D + d.length < 65536) :
    ∃ p' e, addTcpoptBytes p bytes = .ok (p', e) ∧
      Shows p' (grown D (used os) bytes) (squeezed os) d ∧ SameHeader p p' := by
  by_cases hfree : used os + bytes ≤ 4 * D - 20
  · obtain ⟨p', hp', h', hh⟩ := addTcpoptBytes_free h bytes hfree
    exact ⟨p', -1, hp', by rwa [grown_eq_self hfree], hh⟩
  · obtain ⟨p', hp', h', hh⟩ := addTcpoptBytes_grow h bytes (by omega) (by omega) hfit
    exact ⟨p', 0, hp', h', hh⟩

/-! ## Changing the last options -/

/-- The options at the end of the list are replaced by others that take up some of the padding. -/
theorem Shows.replace_last {last : List Opt} (h : Shows p D (os ++ last) d) (last' : List Opt)
    (hlen : (encode last).length ≤ (encode last').length)
    (hfit : (encode os).length + (encode last').length ≤ 4 * D - 20) (hok : ∀ o ∈ last', o.Ok)
    {p' : Mem}
    (hs : SameOutside p p' (p.optOff + (encode os).length) (encode last').length)
    (hh : p'.Holds (p.optOff + (encode os).length) (encode last')) :
    Shows p' D (os ++ last') d ∧ SameHeader p p' := by
  have hold := h.area.holds
  refine h.rewrite ⟨?_, ?_, ?_⟩ (hs.mono (by omega) (by omega))
  · intro o ho
    rcases List.mem_append.1 ho with ho | ho
    · exact h.area.ok o (by simp [ho])
    · exact hok o ho
  · rw [encode_append, List.length_append]
    exact hfit
  · rw [encode_append, List.append_assoc, holds_append] at hold ⊢
    refine ⟨hs.holds hold.1 (.inl (Nat.le_refl _)), ?_⟩
    rw [holds_append]
    refine ⟨hh, holds_replicate.2 fun j hj => ?_⟩
    rw [List.length_append] at hj
    rw [hs _ (by omega)]
    have := h.area.pad (i := (encode os).length + (encode last').length + j)
      (by rw [encode_append, List.length_append]; omega) (by omega)
    rwa [show p.optOff + (encode os).length + (encode last').length + j =
      p.optOff + ((encode os).length + (encode last').length + j) by omega]

theorem Shows.append_last {o : Opt} (h : Shows p D os d)
    (hfit : (encode os).length + o.encode.length ≤ 4 * D - 20) (hok : o.Ok) (p' : Mem)
    (hs : SameOutside p p' (p.optOff + (encode os).length) o.encode.length)
    (hh : p'.Holds (p.optOff + (encode os).length) o.encode) :
    Shows p' D (os ++ [o]) d ∧ SameHeader p p' := by
  have henc : encode [o] = o.encode := by simp
  rw [← henc] at hs hh hfit
  have h' : Shows p D (os ++ []) d := by rwa [List.append_nil]
  exact h'.replace_last [o] (by simp) hfit (by simpa using hok) hs hh

end Opennop
