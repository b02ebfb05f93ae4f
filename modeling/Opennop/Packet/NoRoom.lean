import Opennop.Packet.Nod

/-!
# Tagging a packet without room for the tag

A packet whose options leave fewer than twelve bytes of the largest area cannot take the whole tag.
`set_nod_header_data` finds out stage by stage, and the stages that fit have been carried out by
then: the stub and the header are written, past the end of the area and into the data where they do
not fit, and where not even the stub fits its null pointer is used. No such packet comes out as it
went in.

`Spills` describes the packets in between: the area ends in an option whose length leads past it.
-/

namespace Opennop

open Mem

variable {gap : Int} {p : Mem} {D : Nat} {os : List Opt} {d : List UInt8}

/-- The option area of `D` words of TCP header has the options `os`, no NOP among them, and then an
option of kind `k` that starts in the area and whose length reaches its end or leads past it. -/
structure Spills (p : Mem) (D : Nat) (os : List Opt) (k len : UInt8) : Prop where
  ihl : 5 ≤ p.ihl
  doff : p.doff = D
  ok : ∀ o ∈ os, o.Ok
  squeezed : squeezed os = os
  kind : 2 ≤ k
  starts : (encode os).length < 4 * D - 20
  reaches : 4 * D - 20 ≤ (encode os).length + len.toNat
  fits : (encode os).length + len.toNat < 256
  holds : p.Holds p.optOff (encode os ++ [k, len])

namespace Spills

variable {k len : UInt8}

theorem areaLen (h : Spills p D os k len) : p.areaLen = 4 * D - 20 := by
  have := h.starts
  have := doff_lt p
  have := h.doff
  unfold Mem.areaLen
  omega

theorem options (h : Spills p D os k len) : p.Holds p.optOff (encode os) :=
  (holds_append.1 h.holds).1

theorem last (h : Spills p D os k len) :
    p (p.optOff + (encode os).length) = k ∧ p (p.optOff + (encode os).length + 1) = len := by
  have hlast := (holds_append.1 h.holds).2
  rw [holds_cons, holds_cons] at hlast
  exact ⟨hlast.1, hlast.2.1⟩

theorem optlen_last (h : Spills p D os k len) :
    optlen p p.optOff (encode os).length = len.toNat := by
  have hstarts := h.starts
  have hreaches := h.reaches
  have hgt : ¬ k ≤ tcpoptNop := by
    rw [UInt8.not_le]
    exact UInt8.lt_of_lt_of_le (by decide) h.kind
  have hne : len ≠ 0 := by
    rintro rfl
    rw [show (0 : UInt8).toNat = 0 from rfl] at hreaches
    omega
  unfold optlen
  rw [h.last.1, h.last.2, if_neg (by simp [hgt, hne])]

/-- A scan visits the options before the last one, the last one, and then leaves the area. -/
theorem scan_eq (h : Spills p D os k len) {hit : Nat → Bool} {g : Opt → Bool}
    (hd : Decides p p.optOff (4 * D - 20) hit g) (hos : ∀ o ∈ os, g o = false) :
    scan p p.optOff (4 * D - 20) hit =
      .ok (if hit (encode os).length then some (encode os).length else none) := by
  have hstarts := h.starts
  have hreaches := h.reaches
  have hfits := h.fits
  have hlength := length_le_encode os
  have hD := doff_lt p
  rw [h.doff] at hD
  unfold scan
  rw [show 257 = os.length + ((255 - os.length) + 1 + 1) by omega,
    scan_skip hd (by omega) _ h.ok hos (by simpa using h.options) (by omega), Nat.zero_add]
  cases hhit : hit (encode os).length with
  | true => exact loop_done (scanPass_hit hstarts hhit)
  | false =>
    rw [loop_again (scanPass_miss hstarts hhit), h.optlen_last, Nat.mod_eq_of_lt hfits]
    exact loop_done (scanPass_end hreaches)

theorem getTcpopt_last (h : Spills p D os k len) (hf : firstOfKind k os = none) :
    getTcpopt p k = .ok (some (p.optOff + (encode os).length)) := by
  have hos : ∀ o ∈ os, (o.kind == k) = false := fun o ho => by
    simpa using List.find?_eq_none.1 hf o ho
  unfold getTcpopt
  rw [h.areaLen, h.scan_eq (decides_kind p p.optOff _ k) hos, h.last.1, if_pos (beq_self_eq_true k)]
  rfl

theorem scan_eol (h : Spills p D os k len) :
    scan p p.optOff (4 * D - 20) (fun i => p (p.optOff + i) == tcpoptEol) = .ok none := by
  have hne : (k == tcpoptEol) = false := by
    refine beq_eq_false_iff_ne.2 ?_
    rintro rfl
    exact absurd h.kind (by decide)
  rw [h.scan_eq (decides_eol p p.optOff _) fun _ _ => rfl, h.last.1, hne]
  rfl

theorem getTcpopt_eol (h : Spills p D os k len) : getTcpopt p tcpoptEol = .ok none := by
  unfold getTcpopt
  rw [h.areaLen, h.scan_eol]
  rfl

theorem removeNop_skip {opt n : Nat} (hn : n < 256) (fuel : Nat) {pre : List Opt} {i : Nat}
    (hok : ∀ o ∈ pre, o.Ok) (hnop : ∀ o ∈ pre, o.isNop = false)
    (hholds : p.Holds (opt + i) (encode pre)) (hfit : i + (encode pre).length ≤ n) :
    loop (removeNopPass opt n) (pre.length + fuel) (p, i) =
      loop (removeNopPass opt n) fuel (p, i + (encode pre).length) := by
  induction pre generalizing i with
  | nil => simp
  | cons o pre ih =>
    rw [encode_cons, holds_append] at hholds
    rw [encode_cons, List.length_append] at hfit
    have ho := hok o List.mem_cons_self
    have hpos := o.length_encode_pos
    have hfirst : p (opt + i) ≠ tcpoptNop := by
      cases o with
      | nop => exact absurd (hnop .nop List.mem_cons_self) (by decide)
      | opt k x =>
        rw [(holds_cons.1 hholds.1).1]
        rintro rfl
        exact absurd ho.1 (by decide)
    have hdrop : dropNops opt n i p = .ok p := by
      apply loop_done
      unfold nopPass
      rw [if_neg hfirst]
    have hpass : removeNopPass opt n (p, i) = .ok (.again (p, i + o.encode.length)) := by
      simp only [removeNopPass, if_pos (show i < n by omega), hdrop, ok_bind,
        optlen_encode ho hholds.1, pure_eq_ok]
      rw [Nat.mod_eq_of_lt (by omega)]
    rw [List.length_cons, show pre.length + 1 + fuel = (pre.length + fuel) + 1 by omega,
      loop_again hpass, ih (fun o h => hok o (List.mem_cons_of_mem _ h))
      (fun o h => hnop o (List.mem_cons_of_mem _ h)) (by rw [← Nat.add_assoc]; exact hholds.2)
      (by omega), encode_cons, List.length_append, Nat.add_assoc]

theorem removeTcpoptNop_eq (h : Spills p D os k len) : removeTcpoptNop p = .ok p := by
  have hstarts := h.starts
  have hreaches := h.reaches
  have hlength := length_le_encode os
  have hD := doff_lt p
  rw [h.doff] at hD
  have hnop : ∀ o ∈ os, o.isNop = false := by
    intro o ho
    rw [← h.squeezed] at ho
    simpa using (List.mem_filter.1 ho).2
  have hk : p (p.optOff + (encode os).length) ≠ tcpoptNop := by
    rw [h.last.1]
    rintro rfl
    exact absurd h.kind (by decide)
  have hdrop : dropNops p.optOff (4 * D - 20) (encode os).length p = .ok p := by
    apply loop_done
    unfold nopPass
    rw [if_neg hk]
  have hpass : removeNopPass p.optOff (4 * D - 20) (p, (encode os).length) =
      .ok (.again (p, (encode os).length + len.toNat)) := by
    simp only [removeNopPass, if_pos hstarts, hdrop, ok_bind, h.optlen_last, pure_eq_ok]
    rw [Nat.mod_eq_of_lt h.fits]
  unfold removeTcpoptNop
  rw [h.doff, h.areaLen, if_pos (by omega),
    show nopFuel = os.length + ((nopFuel - os.length - 2) + 1 + 1) by unfold nopFuel; omega,
    removeNop_skip (by omega) _ h.ok hnop (by simpa using h.options) (by omega), Nat.zero_add,
    loop_again hpass]
  apply loop_done
  simp only [removeNopPass, if_neg (Nat.not_lt.2 hreaches)]

theorem getTcpoptFreespace_eq (h : Spills p D os k len) :
    getTcpoptFreespace p = .ok (p, 0) := by
  have hstarts := h.starts
  unfold getTcpoptFreespace
  rw [h.removeTcpoptNop_eq, ok_bind, h.doff, h.areaLen, if_pos (by omega), h.scan_eol, ok_bind]
  rfl

theorem addTcpoptBytes_eq (h : Spills p D os k len) {bytes : Nat} (hb : 0 < bytes) :
    addTcpoptBytes p bytes = addTcpoptAddoff p (dwords bytes) := by
  unfold addTcpoptBytes getTcpoptAddoffNeeded
  rw [h.getTcpoptFreespace_eq, ok_bind]
  simp only [if_pos hb, pure_eq_ok, ok_bind, Nat.sub_zero]

theorem addTcpoptBytes_full (h : Spills p D os k len) {bytes : Nat} (hb : 0 < bytes)
    (hfull : 15 < D + dwords bytes) : addTcpoptBytes p bytes = .ok (p, -1) := by
  rw [h.addTcpoptBytes_eq hb]
  unfold addTcpoptAddoff
  have := doff_lt p
  have := h.doff
  rw [if_neg (by omega), if_neg (by omega)]

end Spills

/-! ## The stages that fail -/

/-- `add_tcpopt_bytes` when the largest area has no room for the bytes. -/
theorem addTcpoptBytes_short (h : Shows p D os d) (bytes : Nat) (hfit : 40 < used os + bytes) :
    ∃ p', addTcpoptBytes p bytes = .ok (p', -1) ∧ Shows p' D (squeezed os) d ∧ SameHeader p p' := by
  obtain ⟨p', hp', h', hh⟩ := getTcpoptAddoffNeeded_shows h bytes
  refine ⟨p', ?_, h', hh⟩
  have hroom := room_iff bytes h.five_le h.doff_lt h.used_le
  unfold grown at hroom
  unfold addTcpoptBytes
  rw [hp', ok_bind]
  exact addTcpoptAddoff_full h' (by omega)

/-- `shift_tcpopt_space` does not look before its location. -/
theorem shiftTcpoptSpace_below {r : Option Nat} (hr : getTcpopt p tcpoptEol = .ok r)
    (location : Nat) {bytes : Nat} (hb : 0 < bytes) :
    ∃ p' n, shiftTcpoptSpace p location bytes = .ok (p', n) ∧ ∀ i < location, p' i = p i := by
  unfold shiftTcpoptSpace
  rw [hr, ok_bind]
  cases r with
  | none => exact ⟨p, 0, rfl, fun _ _ => rfl⟩
  | some optend =>
    refine ⟨_, _, rfl, fun i hi => ?_⟩
    rw [set_ne _ _ (by omega), set_ne _ _ (by omega), fill_out _ _ (by omega),
      move_out _ (by omega)]

/-- The packet before the header is written: the stub stands after the options `os`, in the area or
with its length byte in the first byte of the data. -/
structure Stubbed (p : Mem) (os : List Opt) (q : Mem) : Prop where
  same : SameHeader p q
  grows : p.doff ≤ q.doff
  starts : used os < 4 * q.doff - 20
  inside : q.doff ≤ 14 → used os + 2 ≤ 4 * q.doff - 20
  eol : ∃ r, getTcpopt q tcpoptEol = .ok r
  holds : q.Holds p.optOff (encode (squeezed os) ++ [nod, 2])

theorem stubbed_inside (gap : Int) (h : Shows p D os d) (ht : 4 * p.ihl + 4 * D + d.length < 65536)
    (hf : firstOfKind nod os = none) (hlow : 33 ≤ used os) (hhigh : used os ≤ 38) :
    ∃ p₁ p₂ e, setTcpopt p nod 2 = .ok (p₁, some (p.optOff + used os)) ∧
      getNodHeader gap p₁ onop = .ok none ∧ addTcpoptBytes p₁ 6 = .ok (p₂, e) ∧
        Stubbed p os p₂ := by
  have hu := h.used_le
  have hf' : firstOfKind nod (squeezed os) = none := by rw [firstOfKind_squeezed os (by decide), hf]
  obtain ⟨p₁, hp₁, h₁, hh₁⟩ := setTcpopt_absent h ht (k := nod) (by decide) hf (by omega)
  have hused : used (squeezed os ++ [.opt nod []]) = used os + 2 := used_last os nod []
  obtain ⟨p₂, hp₂, h₂, hh₂⟩ := addTcpoptBytes_short h₁ 6 (by omega)
  rw [squeezed_last] at h₂
  have hroom := room_after 2 h.five_le hu
  refine ⟨p₁, p₂, -1, hp₁, getNodHeader_stub h₁ hf', hp₂, hh₁.trans hh₂, ?_, ?_, ?_,
    ⟨_, getTcpopt_eol h₂⟩, ?_⟩
  · rw [h.doff, h₂.doff]
    exact Nat.le_add_right _ _
  · rw [h₂.doff]
    omega
  · intro _
    rw [h₂.doff]
    exact hroom
  · have hholds := h₂.area.options
    rw [(hh₁.trans hh₂).optOff, encode_append] at hholds
    exact hholds

/-- One byte is free: the length byte of the stub becomes the first byte of the data. -/
theorem stubbed_outside (gap : Int) (h : Shows p D os d) (hf : firstOfKind nod os = none)
    (hused : used os = 39) :
    ∃ p₁ p₂ e, setTcpopt p nod 2 = .ok (p₁, some (p.optOff + used os)) ∧
      getNodHeader gap p₁ onop = .ok none ∧ addTcpoptBytes p₁ 6 = .ok (p₂, e) ∧
        Stubbed p os p₂ := by
  have hu := h.used_le
  have hlt := h.doff_lt
  obtain rfl : D = 15 := by omega
  have hf' : firstOfKind nod (squeezed os) = none := by rw [firstOfKind_squeezed os (by decide), hf]
  obtain ⟨p', hp', h', hh⟩ := getTcpoptAddoffNeeded_shows h 2
  have heol := getTcpopt_eol h'
  rw [length_encode_squeezed, if_pos (by omega), hh.optOff] at heol
  generalize hp₁ : (p'.set (p.optOff + used os) nod).set (p.optOff + used os + 1) 2 = p₁
  have hsame : ∀ i < p.optOff + used os, p₁ i = p' i := by
    intro i hi
    rw [← hp₁, set_ne _ _ (by omega), set_ne _ _ (by omega)]
  have hbelow : ∀ i < p'.optOff, p₁ i = p' i := fun i hi =>
    hsame i (by rw [hh.optOff] at hi; omega)
  obtain ⟨hh₁, hdoff, -⟩ := sameHeader_of_below hbelow
  have hholds : p₁.Holds p.optOff (encode (squeezed os) ++ [nod, 2]) := by
    rw [holds_append, length_encode_squeezed]
    constructor
    · rw [← hh.optOff]
      refine h'.area.options.congr fun i h₁ h₂ => hsame i ?_
      rw [length_encode_squeezed, hh.optOff] at h₂
      exact h₂
    · rw [holds_cons, holds_cons, ← hp₁]
      refine ⟨?_, set_self _ _ _, holds_nil _ _⟩
      rw [set_ne _ _ (by omega), set_self]
  have hhp₁ := hh.trans hh₁
  have hspills : Spills p₁ 15 (squeezed os) nod 2 := by
    refine ⟨by rw [hhp₁.ihl]; exact h.ihl, by rw [hdoff, h'.doff], h'.area.ok, squeezed_squeezed os,
      by decide, ?_, ?_, ?_, by rw [hhp₁.optOff]; exact hholds⟩
    all_goals rw [length_encode_squeezed, hused]; decide
  refine ⟨p₁, p₁, -1, ?_, ?_, hspills.addTcpoptBytes_full (by decide) (by decide), hhp₁, ?_, ?_, ?_,
    ⟨_, hspills.getTcpopt_eol⟩, hholds⟩
  · unfold setTcpopt
    rw [getTcpopt_absent h (by decide) hf, ok_bind]
    dsimp only
    rw [hp', ok_bind]
    dsimp only
    rw [addTcpoptAddoff_full h' (by rw [hused]; decide), ok_bind]
    dsimp only
    rw [heol, ok_bind, ← hp₁]
    rfl
  · unfold getNodHeader
    rw [hspills.getTcpopt_last hf', ok_bind]
    dsimp only
    rw [hspills.last.2]
    rfl
  · exact Nat.le_of_eq (by rw [h.doff, hspills.doff])
  · rw [hspills.doff, hused]
    decide
  · rw [hspills.doff]
    omega

theorem setNodHeader_stubbed {p₁ p₂ : Mem} {e : Int} (hok : ∀ o ∈ os, o.Ok) (hi : 5 ≤ p.ihl)
    (hf : firstOfKind nod os = none) (hlow : 33 ≤ used os) (hhigh : used os ≤ 39)
    (hset : setTcpopt p nod 2 = .ok (p₁, some (p.optOff + used os)))
    (hget : getNodHeader gap p₁ onop = .ok none) (hadd : addTcpoptBytes p₁ 6 = .ok (p₂, e))
    (h : Stubbed p os p₂) :
    ∃ q, setNodHeader gap p onop = .ok (q, some (p.optOff + used os + 2)) ∧
      SameHeader p q ∧ q.doff = p₂.doff ∧ Spills q p₂.doff (squeezed os) nod 8 ∧
      q.Holds (p.optOff + used os) header.encode := by
  have hf' : firstOfKind nod (squeezed os) = none := by rw [firstOfKind_squeezed os (by decide), hf]
  have hD := doff_lt p₂
  obtain ⟨r, hr⟩ := h.eol
  have hstub : ∀ {q : Mem}, q.Holds p.optOff (encode (squeezed os) ++ [nod, 2]) →
      q.Holds (p.optOff + used os) [nod, 2] ∧ (q (p.optOff + used os + 1)).toNat = 2 := by
    intro q hq
    have hq' := (holds_append.1 hq).2
    rw [length_encode_squeezed] at hq'
    refine ⟨hq', ?_⟩
    rw [(holds_cons.1 (holds_cons.1 hq').2).1]
    rfl
  obtain ⟨p₃, n, hshift, hbelow⟩ := shiftTcpoptSpace_below hr (p.optOff + used os + 2)
    (show 0 < 6 by decide)
  have h₃ : p₃.Holds p.optOff (encode (squeezed os) ++ [nod, 2]) := by
    refine h.holds.congr fun i h₁ h₂ => hbelow i ?_
    rw [List.length_append, length_encode_squeezed] at h₂
    exact h₂
  obtain ⟨hfill, hout⟩ := fillNodHeader_holds (hstub h₃).1
  generalize hq : fillNodHeader p₃ (p.optOff + used os) 6 onop = q at hfill hout
  have hsame : ∀ i < p.optOff + used os, q i = p₂ i := fun i hi =>
    (hout i (.inl hi)).trans (hbelow i (by omega))
  have hheader : ∀ i < p₂.optOff, q i = p₂ i := fun i hi =>
    hsame i (by rw [h.same.optOff] at hi; omega)
  obtain ⟨hhq, hdoff, -⟩ := sameHeader_of_below hheader
  have hhp := h.same.trans hhq
  have hholds : q.Holds q.optOff (encode (squeezed os) ++ [nod, 8]) := by
    rw [hhp.optOff, holds_append, length_encode_squeezed]
    constructor
    · refine (holds_append.1 h.holds).1.congr fun i h₁ h₂ => hsame i ?_
      rw [length_encode_squeezed] at h₂
      exact h₂
    · have henc : header.encode = [nod, 8] ++ (6 :: 52 :: onop) := rfl
      rw [henc] at hfill
      exact (holds_append.1 hfill).1
  have hstarts := h.starts
  have hspills : Spills q p₂.doff (squeezed os) nod 8 := by
    refine ⟨by rw [hhp.ihl]; exact hi, hdoff, Opt.ok_squeezed hok, squeezed_squeezed os, by decide,
      hstarts, ?_, ?_, hholds⟩
    · rw [length_encode_squeezed, show (8 : UInt8).toNat = 8 from rfl]
      omega
    · rw [length_encode_squeezed, show (8 : UInt8).toNat = 8 from rfl]
      omega
  refine ⟨q, ?_, hhp, hdoff, hspills, hfill⟩
  have hlast := hspills.getTcpopt_last hf'
  rw [length_encode_squeezed, hhp.optOff] at hlast
  unfold setNodHeader
  rw [hset, ok_bind]
  dsimp only
  rw [hget, ok_bind]
  dsimp only
  rw [show (2 + onop.length) % 256 = 6 from rfl, hadd, ok_bind]
  dsimp only
  rw [(hstub h.holds).2, hshift, ok_bind]
  dsimp only
  have hhead : getNodHeader gap q onop = .ok (some (p.optOff + used os + 2)) :=
    @getNodHeader_of_holds q gap _ 6 52 [] hlast (by decide) hfill rfl
  rw [(hstub h₃).2, hq, hhead, ok_bind]
  rfl

theorem openGap_below {a : Nat} {p' : Mem} (hd : 5 ≤ p.doff) (h : openGap p a = .ok p') :
    ∀ i < p.dataOff, p' i = p i := by
  unfold openGap at h
  split at h
  · cases h
  · rw [Except.ok.injEq] at h
    generalize hq :
      p.move (p.dataOff + 4 * a) p.dataOff (p.totLen - 4 * p.ihl - 4 * p.doff) = q at h
    have hbelow : ∀ i < p.dataOff, q i = p i := fun i hi => by
      rw [← hq, move_out _ (by omega)]
    have hheader : ∀ i < p.optOff, q i = p i := fun i hi => hbelow i (by
      unfold dataOff
      unfold optOff at hi
      omega)
    obtain ⟨hh, hdoff, -⟩ := sameHeader_of_below hheader
    intro i hi
    rw [← h, zeroGap_eq (by rw [hdoff]; exact hd), hh.dataOff hdoff, fill_out _ _ (.inl hi),
      hbelow i hi]

/-- Growing the area under an option that leads past it as long as it still does. -/
theorem Spills.grow {q q' : Mem} {e : Int} {k len : UInt8} (h : Spills q D os k len)
    (hD : D ≤ 14) (hin : (encode os).length + 2 ≤ 4 * D - 20)
    (hreach : 4 * (D + 1) - 20 ≤ (encode os).length + len.toNat)
    (hadd : addTcpoptAddoff q 1 = .ok (q', e)) : Spills q' (D + 1) os k len := by
  have hstarts := h.starts
  have hoff : q.dataOff = q.optOff + (4 * D - 20) := by
    unfold dataOff optOff
    rw [h.doff]
    omega
  unfold addTcpoptAddoff at hadd
  rw [if_neg (by decide), if_pos (by rw [h.doff]; omega)] at hadd
  obtain ⟨p₁, hgap, hret⟩ := bind_eq_ok.1 hadd
  have hbelow := openGap_below (by rw [h.doff]; omega) hgap
  have hheader : ∀ i < q.optOff, p₁ i = q i := fun i hi => hbelow i (by omega)
  obtain ⟨hh₁, hdoff₁, -⟩ := sameHeader_of_below hheader
  obtain ⟨hh₂, hdoff₂, -, habove⟩ := resize_fields (p := p₁) (by rw [hh₁.ihl]; exact h.ihl)
    (p₁.doff + 1) ((p₁.setDoff (p₁.doff + 1)).totLen + 4 * 1)
  have hq' : q' = (p₁.setDoff (p₁.doff + 1)).setTotLen
      ((p₁.setDoff (p₁.doff + 1)).totLen + 4 * 1) := by
    simp only [pure_eq_ok, Except.ok.injEq, Prod.mk.injEq] at hret
    exact hret.1.symm
  have hh := hh₁.trans hh₂
  rw [hq']
  refine ⟨by rw [hh.ihl]; exact h.ihl, ?_, h.ok, h.squeezed, h.kind, by omega, hreach, h.fits, ?_⟩
  · rw [hdoff₂, hdoff₁, h.doff]
    omega
  · rw [hh.optOff]
    refine h.holds.congr fun i h₁ h₂ => ?_
    rw [List.length_append, List.length_cons, List.length_cons, List.length_nil] at h₂
    rw [habove i (by rw [hh₁.optOff]; exact h₁), hbelow i (by omega)]

/-- Where the header did not fit, the packet comes out longer or with a NOD option. -/
theorem setNodHeaderData_past (h : Shows p D os d) (ht : 4 * p.ihl + 4 * D + d.length < 65536)
    (hf : firstOfKind nod os = none) {id : List UInt8} (hid : id.length = 4) (hlow : 33 ≤ used os)
    (hhigh : used os ≤ 39) {p' : Mem} (hset : setNodHeaderData gap p onop id = .ok p') :
    p'.doff ≠ p.doff ∨ getTcpopt p' nod ≠ .ok none := by
  have hf' : firstOfKind nod (squeezed os) = none := by rw [firstOfKind_squeezed os (by decide), hf]
  obtain ⟨p₁, p₂, e, hp₁, hget, hp₂, hstub⟩ : ∃ p₁ p₂ e,
      setTcpopt p nod 2 = .ok (p₁, some (p.optOff + used os)) ∧
      getNodHeader gap p₁ onop = .ok none ∧ addTcpoptBytes p₁ 6 = .ok (p₂, e) ∧
      Stubbed p os p₂ := by
    by_cases h39 : used os = 39
    · exact stubbed_outside gap h hf h39
    · exact stubbed_inside gap h ht hf hlow (by omega)
  obtain ⟨q, hq, hh, hdoff, hspills, hheader⟩ :=
    setNodHeader_stubbed h.area.ok h.ihl hf hlow hhigh hp₁ hget hp₂ hstub
  have hlast := hspills.getTcpopt_last hf'
  rw [length_encode_squeezed, hh.optOff] at hlast
  rw [setNodHeaderData_of_header hq hlast hheader, hid,
    hspills.addTcpoptBytes_eq (by decide), show dwords 4 = 1 from rfl] at hset
  have hlt := doff_lt p₂
  have hstarts := hstub.starts
  by_cases h15 : p₂.doff = 15
  · have hfull : addTcpoptAddoff q 1 = .ok (q, -1) := by
      unfold addTcpoptAddoff
      rw [if_neg (by decide), if_neg (by rw [hdoff]; omega)]
    rw [hfull, ok_bind] at hset
    obtain rfl : q = p' := Except.ok.inj hset
    right
    rw [hlast]
    simp
  · obtain ⟨⟨q', e'⟩, hadd, hrest⟩ := bind_eq_ok.1 hset
    have hgrown : Spills q' (p₂.doff + 1) (squeezed os) nod 8 := by
      have hinside := hstub.inside (by omega)
      refine hspills.grow (by omega) hinside ?_ hadd
      rw [length_encode_squeezed, show (8 : UInt8).toNat = 8 from rfl]
      omega
    dsimp only at hrest
    rw [hgrown.getTcpoptFreespace_eq, ok_bind] at hrest
    obtain rfl : q' = p' := by
      split at hrest
      · exact Except.ok.inj hrest
      · exact Except.ok.inj hrest
    left
    rw [hgrown.doff]
    have hgrows := hstub.grows
    omega

theorem setNodHeaderData_null (h : Shows p D os d) (hf : firstOfKind nod os = none)
    (hused : used os = 40) (id : List UInt8) :
    setNodHeaderData gap p onop id = .error .segv := by
  have hu := h.used_le
  have hlt := h.doff_lt
  obtain rfl : D = 15 := by omega
  have hf' : firstOfKind nod (squeezed os) = none := by rw [firstOfKind_squeezed os (by decide), hf]
  obtain ⟨p₁, hp₁, h₁, hh₁⟩ := getTcpoptAddoffNeeded_shows h 2
  have heol := getTcpopt_eol h₁
  rw [length_encode_squeezed, if_neg (by omega)] at heol
  have hset : setTcpopt p nod 2 = .ok (p₁, none) := by
    unfold setTcpopt
    rw [getTcpopt_absent h (by decide) hf, ok_bind]
    dsimp only
    rw [hp₁, ok_bind]
    dsimp only
    rw [addTcpoptAddoff_full h₁ (by rw [hused]; decide), ok_bind]
    dsimp only
    rw [heol, ok_bind]
    rfl
  have hget : getNodHeader gap p₁ onop = .ok none := by
    unfold getNodHeader
    rw [getTcpopt_absent h₁ (by decide) hf', ok_bind]
    rfl
  have hused₁ : used (squeezed os) = 40 := by
    unfold used at hused ⊢
    rw [squeezed_squeezed, hused]
  obtain ⟨p₂, hp₂, -, -⟩ := addTcpoptBytes_short h₁ 6 (by omega)
  unfold setNodHeaderData setNodHeader
  rw [hset, ok_bind]
  dsimp only
  rw [hget, ok_bind]
  dsimp only
  rw [show (2 + onop.length) % 256 = 6 from rfl, hp₂, ok_bind]
  rfl

/-- The header fits and its data does not: the packet gets the header. -/
theorem setNodHeaderData_header (gap : Int) (h : Shows p D os d)
    (ht : 4 * p.ihl + 4 * D + d.length < 65536) (hf : firstOfKind nod os = none) {id : List UInt8}
    (hid : id.length = 4) (hfull : 40 < used os + 12) (hfit : used os + 8 ≤ 40)
    (hgrow : used os + 8 ≤ 4 * grown D (used os) 2 - 20 ∨
      4 * p.ihl + 4 * grown D (used os) 2 + d.length < 65536) :
    ∃ p', setNodHeaderData gap p onop id = .ok p' ∧
      Shows p' (grown D (used os) 8) (squeezed os ++ [header]) d ∧ SameHeader p p' := by
  have hf' : firstOfKind nod (squeezed os) = none := by rw [firstOfKind_squeezed os (by decide), hf]
  obtain ⟨p₁, hp₁, h₁, hh₁⟩ := setNodHeader_absent gap h ht hf hfit hgrow
  obtain ⟨p₂, hp₂, h₂, hh₂⟩ := addTcpoptBytes_short h₁ 4 (by rw [used_header]; omega)
  rw [squeezed_header] at h₂
  refine ⟨p₂, ?_, h₂, hh₁.trans hh₂⟩
  rw [setNodHeaderData_eq h₁ hf' hh₁.optOff hp₁, hid, hp₂, ok_bind]
  rfl

/-! ## No packet is left alone -/

/-- `set_nod_header_data` returns, with the payload, the lengths and the options other than NOPs as
they were. -/
def LeftAlone (gap : Int) (p : Mem) (os : List Opt) (id : List UInt8) : Prop :=
  ∃ p' os', setNodHeaderData gap p onop id = .ok p' ∧ WellFormed p' os' ∧
    squeezed os' = squeezed os ∧ p'.doff = p.doff ∧ p'.totLen = p.totLen ∧
    p'.read p'.dataOff (p.totLen - 4 * p.ihl - 4 * p.doff) =
      p.read p.dataOff (p.totLen - 4 * p.ihl - 4 * p.doff)

/-- A packet that comes out with a NOD option, or longer, is not left alone. -/
theorem not_leftAlone_of_changed (hf : firstOfKind nod os = none) {id : List UInt8}
    (hchanged : ∀ p', setNodHeaderData gap p onop id = .ok p' →
      p'.doff ≠ p.doff ∨ getTcpopt p' nod ≠ .ok none) : ¬ LeftAlone gap p os id := by
  rintro ⟨p', os', hset, hwf, hsq, hdoff, -, -⟩
  rcases hchanged p' hset with hne | hne
  · exact hne hdoff
  · refine hne (getTcpopt_absent (hwf.shows _ rfl) (by decide) ?_)
    rw [← firstOfKind_squeezed os' (by decide), hsq, firstOfKind_squeezed os (by decide), hf]

/-- **A packet without room for the tag is never left alone.** Where the options leave eight bytes
it gets a header without data, where they leave fewer the header is written over the data, and where
they leave none a null pointer is used. -/
theorem not_leftAlone (gap : Int) (p : Mem) (os : List Opt) (h : WellFormed p os)
    (hf : firstOfKind nod os = none) (hfull : 40 < used os + 12) (id : List UInt8)
    (hid : id.length = 4) :
    ¬ LeftAlone gap p os id ∧
      (used os = 40 → setNodHeaderData gap p onop id = .error .segv) := by
  have hs := h.shows _ rfl
  have htot := h.totLen
  have hlt := totLen_lt p
  have hu := hs.used_le
  have hD := hs.doff_lt
  have ht : 4 * p.ihl + 4 * p.doff +
      (p.read p.dataOff (p.totLen - 4 * p.ihl - 4 * p.doff)).length < 65536 := by
    rw [length_read]
    omega
  refine ⟨not_leftAlone_of_changed hf fun p' hset => ?_,
    fun h40 => setNodHeaderData_null hs hf h40 id⟩
  by_cases h32 : used os ≤ 32
  · by_cases hgrow : used os + 8 ≤ 4 * grown p.doff (used os) 2 - 20 ∨
        4 * p.ihl + 4 * grown p.doff (used os) 2 +
          (p.read p.dataOff (p.totLen - 4 * p.ihl - 4 * p.doff)).length < 65536
    · obtain ⟨p₁, hp₁, h₁, -⟩ := setNodHeaderData_header gap hs ht hf hid hfull (by omega) hgrow
      obtain rfl : p₁ = p' := Except.ok.inj (hp₁.symm.trans hset)
      have hat : getTcpopt p₁ nod = .ok (some _) :=
        getTcpopt_at h₁ (by rw [firstOfKind_squeezed os (by decide), hf]) rfl
      right
      rw [hat]
      simp
    · rw [not_or] at hgrow
      have hfault : setNodHeader gap p onop = .error .segv :=
        setNodHeader_fault hs ht (by rw [length_read]; omega) hf (by omega) (by omega) (by omega)
      unfold setNodHeaderData at hset
      rw [hfault, error_bind] at hset
      cases hset
  · by_cases h40 : used os = 40
    · rw [setNodHeaderData_null hs hf h40 id] at hset
      cases hset
    · exact setNodHeaderData_past hs ht hf hid (by omega) (by omega) hset

/-- A segment with 60 bytes of TCP header, the given options and four bytes of data. -/
def fullSegment (opts : List UInt8) : Mem :=
  Mem.ofList ([0x45, 0, 0, 84, 0, 0, 0, 0, 64, 6, 0, 0,
    10, 0, 0, 1, 10, 0, 0, 2, 0x30, 0x39, 0, 80, 0, 0, 0, 1, 0, 0, 0, 0,
    0xf0, 16, 0xff, 0xff, 0, 0, 0, 0] ++ opts ++ [1, 2, 3, 4])

/-- A timestamp and three SACK blocks, each after two NOPs. -/
def timestampSack : List Opt :=
  [.nop, .nop, .opt 8 (List.replicate 8 7), .nop, .nop, .opt 5 (List.replicate 24 9)]

theorem not_leftAlone_timestampSack :
    WellFormed (fullSegment (encode timestampSack)) timestampSack ∧
      ¬ LeftAlone 0 (fullSegment (encode timestampSack)) timestampSack [1, 2, 3, 4] :=
  ⟨by decide, (not_leftAlone 0 _ timestampSack (by decide) rfl (by decide) [1, 2, 3, 4] rfl).1⟩

/-- The data of the segment with the timestamp and the SACK blocks becomes the vendor ID, and a
segment whose options fill the area stops the daemon. -/
theorem overwritten_timestampSack :
    WellFormed (fullSegment (encode timestampSack)) timestampSack ∧
      firstOfKind nod timestampSack = none ∧ used timestampSack = 36 ∧
      ¬ LeftAlone 0 (fullSegment (encode timestampSack)) timestampSack [1, 2, 3, 4] ∧
      (setNodHeaderData 0 (fullSegment (encode timestampSack)) onop [1, 2, 3, 4]).map
        (fun p' => p'.read 80 4) = .ok onop ∧
      setNodHeaderData 0 (fullSegment (encode [.opt 5 (List.replicate 38 9)])) onop [1, 2, 3, 4] =
        .error .segv := by
  have hwf : WellFormed (fullSegment (encode timestampSack)) timestampSack := by decide
  have hfull : WellFormed (fullSegment (encode [.opt 5 (List.replicate 38 9)]))
      [.opt 5 (List.replicate 38 9)] := by decide
  refine ⟨hwf, rfl, by decide, ?_, by decide +kernel, ?_⟩
  · refine not_leftAlone_of_changed rfl fun p' hset => ?_
    exact setNodHeaderData_past (hwf.shows _ rfl) (by decide) rfl rfl (by decide) (by decide) hset
  · exact setNodHeaderData_null (hfull.shows _ rfl) rfl (by decide) [1, 2, 3, 4]

end Opennop
