import Opennop.Packet.Rewrite

/-!
# Writing and reading the accelerator tag

`set_nod_header_data` builds the tag in three stages: an empty NOD option after the other options
(`stub`), the ONOP header in it (`header`), and the header's data (`tag`). Each stage squeezes the
options and makes room for its own bytes. The stages are followed here on a well-formed packet that
carries no NOD option yet.
-/

namespace Opennop

open Mem

def stub : Opt := .opt nod []

/-- The NOD option with an ONOP header without data: `tot_len`, `idlen` and `hdr_len`, the ID. -/
def header : Opt := .opt nod (6 :: 52 :: onop)

/-- The NOD option with an ONOP header and its data. -/
def tag (data : List UInt8) : Opt :=
  .opt nod (UInt8.ofNat (6 + data.length) :: UInt8.ofNat ((6 + data.length) * 8 + 4) ::
    (onop ++ data))

variable {gap : Int} {p : Mem} {D : Nat} {os : List Opt} {d : List UInt8}

/-! ## Reading -/

theorem getNodHeader_stub (h : Shows p D (os ++ [stub]) d) (hf : firstOfKind nod os = none) :
    getNodHeader gap p onop = .ok none := by
  have hlen : p (p.optOff + (encode os).length + 1) = 2 :=
    (holds_cons.1 (holds_cons.1 h.area.mid).2).1
  unfold getNodHeader
  rw [getTcpopt_at h hf rfl, ok_bind]
  simp only [hlen]
  rfl

/-- An ONOP header at the front of the option that `get_tcpopt` gives is found. -/
theorem getNodHeader_of_holds (gap : Int) {a : Nat} {t x : UInt8} {rest : List UInt8}
    (hnod : getTcpopt p nod = .ok (some a)) (hok : (Opt.opt nod (t :: x :: (onop ++ rest))).Ok)
    (h : p.Holds a (Opt.opt nod (t :: x :: (onop ++ rest))).encode) (hx : x.toNat % 8 = 4) :
    getNodHeader gap p onop = .ok (some (a + 2)) := by
  simp only [Opt.Ok, List.length_cons, List.length_append] at hok
  simp only [Opt.encode, holds_cons, holds_append, Nat.add_assoc, Nat.reduceAdd] at h
  obtain ⟨-, hlen, -, hbyte, hid, -⟩ := h
  unfold getNodHeader
  rw [hnod, ok_bind]
  simp only [hlen]
  rw [if_pos (by
    simp only [List.length_cons, List.length_append, UInt8.toNat_ofNat']
    omega)]
  apply loop_done
  have hidlen : nodIdlen p (a + 2) = onop.length := by
    unfold nodIdlen
    rw [Nat.add_assoc, hbyte]
    exact hx
  have hcheck : checkNodHeader p (a + 2) onop = true := by
    unfold checkNodHeader
    rw [beq_iff_eq, Nat.add_assoc]
    exact hid
  simp only [nodPass, hidlen, hcheck, and_self, if_true]

theorem getNodHeader_first (gap : Int) {t x : UInt8} (rest : List UInt8) {post : List Opt}
    (h : Shows p D (os ++ .opt nod (t :: x :: (onop ++ rest)) :: post) d)
    (hf : firstOfKind nod os = none) (hx : x.toNat % 8 = 4) :
    getNodHeader gap p onop = .ok (some (p.optOff + (encode os).length + 2)) :=
  getNodHeader_of_holds gap (getTcpopt_at h hf rfl) (h.area.ok _ (by simp)) h.area.mid hx

theorem nodFields_of_holds {a : Nat} {t x : UInt8} {rest : List UInt8}
    (h : p.Holds a (Opt.opt nod (t :: x :: rest)).encode) :
    nodTotLen p (a + 2) = t.toNat ∧ nodIdlen p (a + 2) = x.toNat % 8 ∧
      nodHdrLen p (a + 2) = x.toNat / 8 := by
  simp only [Opt.encode, holds_cons, Nat.add_assoc, Nat.reduceAdd] at h
  obtain ⟨-, -, ht, hx, -⟩ := h
  unfold nodTotLen nodIdlen nodHdrLen
  simp only [Nat.add_assoc, Nat.reduceAdd, ht, hx, and_self]

theorem nodFields {t x : UInt8} {rest : List UInt8} {post : List Opt}
    (h : Shows p D (os ++ .opt nod (t :: x :: rest) :: post) d) :
    nodTotLen p (p.optOff + (encode os).length + 2) = t.toNat ∧
      nodIdlen p (p.optOff + (encode os).length + 2) = x.toNat % 8 ∧
      nodHdrLen p (p.optOff + (encode os).length + 2) = x.toNat / 8 :=
  nodFields_of_holds h.area.mid

theorem getNodHeaderData_header (h : Shows p D (os ++ [header]) d)
    (hf : firstOfKind nod os = none) :
    getNodHeaderData gap p onop = .ok ⟨0, none⟩ := by
  obtain ⟨-, hid, hlen⟩ := nodFields h
  unfold getNodHeaderData
  rw [getNodHeader_first gap [] h hf rfl, ok_bind]
  simp only [hid, hlen]
  rfl

theorem getNodHeaderData_tag (gap : Int) {id : List UInt8} (hid : id.length = 4) {post : List Opt}
    (h : Shows p D (os ++ tag id :: post) d) (hf : firstOfKind nod os = none) :
    getNodHeaderData gap p onop = .ok ⟨4, some (p.optOff + (encode os).length + 8)⟩ ∧
      p.read (p.optOff + (encode os).length + 8) 4 = id := by
  obtain ⟨-, hidlen, hlen⟩ := nodFields h
  have hmid := h.area.mid
  simp only [tag, Opt.encode, holds_cons, holds_append, Nat.add_assoc, Nat.reduceAdd] at hmid
  constructor
  · unfold getNodHeaderData
    rw [getNodHeader_first gap _ h hf (by rw [hid]; rfl), ok_bind]
    simp only [hidlen, hlen, hid]
    rfl
  · rw [← hid, Nat.add_assoc]
    exact hmid.2.2.2.2.2

/-! ## The option stub -/

theorem Shows.append_empty (h : Shows p D os d) {k : UInt8} (hk : 2 ≤ k)
    (hfit : (encode os).length + 2 ≤ 4 * D - 20) :
    Shows ((p.set (p.optOff + (encode os).length) k).set (p.optOff + (encode os).length + 1) 2) D
        (os ++ [.opt k []]) d ∧
      SameHeader p ((p.set (p.optOff + (encode os).length) k).set
        (p.optOff + (encode os).length + 1) 2) := by
  refine h.append_last (o := .opt k []) hfit ⟨hk, by decide⟩ _ (fun i hi => ?_) ?_
  · rw [Opt.length_encode_opt, List.length_nil] at hi
    rw [set_ne _ _ (by omega), set_ne _ _ (by omega)]
  · rw [Opt.encode, holds_cons, holds_cons]
    refine ⟨?_, set_self _ _ _, holds_nil _ _⟩
    rw [set_ne _ _ (by omega), set_self]

theorem setTcpopt_absent (h : Shows p D os d) (ht : 4 * p.ihl + 4 * D + d.length < 65536)
    {k : UInt8} (hk : 2 ≤ k) (hf : firstOfKind k os = none) (hfit : used os + 2 ≤ 40) :
    ∃ p', setTcpopt p k 2 = .ok (p', some (p.optOff + used os)) ∧
      Shows p' (grown D (used os) 2) (squeezed os ++ [.opt k []]) d ∧ SameHeader p p' := by
  have hu := h.used_le
  have hroom := (room_iff _ h.five_le h.doff_lt hu).2 hfit
  have hafter := room_after 2 h.five_le hu
  obtain ⟨p₁, hp₁, h₁, hh₁⟩ := getTcpoptAddoffNeeded_shows h 2
  -- whether or not the area grows, it then has the room
  obtain ⟨p₂, e, hp₂, h₂, hh₂⟩ : ∃ p₂ e, addTcpoptAddoff p₁ (dwords (2 - (4 * D - 20 - used os))) =
      .ok (p₂, e) ∧ Shows p₂ (grown D (used os) 2) (squeezed os) d ∧ SameHeader p p₂ := by
    unfold grown
    by_cases h0 : dwords (2 - (4 * D - 20 - used os)) = 0
    · rw [h0]
      exact ⟨p₁, -1, addTcpoptAddoff_zero p₁, h₁, hh₁⟩
    · obtain ⟨p₂, hp₂, h₂, hh₂⟩ := addTcpoptAddoff_grow h₁ (by rw [hh₁.ihl]; exact ht)
        (Nat.pos_of_ne_zero h0) hroom
      exact ⟨p₂, 0, hp₂, h₂, hh₁.trans hh₂⟩
  have heol := getTcpopt_eol h₂
  rw [length_encode_squeezed, if_pos (by omega)] at heol
  obtain ⟨h₃, hh₃⟩ := h₂.append_empty hk hafter
  rw [length_encode_squeezed] at h₃ hh₃
  refine ⟨_, ?_, h₃, hh₂.trans hh₃⟩
  unfold setTcpopt
  rw [getTcpopt_absent h hk hf, ok_bind]
  dsimp only
  rw [hp₁, ok_bind]
  dsimp only
  rw [hp₂, ok_bind]
  dsimp only
  rw [heol, ok_bind, ← hh₂.optOff]
  rfl

/-! ## The header -/

theorem shiftTcpoptSpace_end (h : Shows p D os d) (hfree : (encode os).length < 4 * D - 20)
    {bytes : Nat} (hb : 0 < bytes) :
    ∃ p', shiftTcpoptSpace p (p.optOff + (encode os).length) bytes = .ok (p', bytes) ∧
      SameOutside p p' (p.optOff + (encode os).length) bytes := by
  unfold shiftTcpoptSpace
  rw [getTcpopt_eol h, if_pos hfree, ok_bind]
  dsimp only
  rw [show (((p.optOff + (encode os).length : Nat) : Int) -
    (p.optOff + (encode os).length : Nat)) % 256 = 0 by omega, Int.toNat_zero]
  refine ⟨_, rfl, fun i hi => ?_⟩
  rw [set_ne _ _ (by omega), set_ne _ _ (by omega), fill_out _ _ (by omega), move_out _ (by omega)]

theorem setNodFields (p : Mem) (nodh idlen hdrlen : Nat) :
    setNodHdrLen (setNodIdlen p nodh idlen) nodh hdrlen =
      p.set (nodh + 1) (UInt8.ofNat (hdrlen % 32 * 8 + idlen % 8)) := by
  have hid : nodIdlen (setNodIdlen p nodh idlen) nodh = idlen % 8 := by
    unfold nodIdlen setNodIdlen
    rw [set_self, UInt8.toNat_ofNat']
    omega
  funext i
  unfold setNodHdrLen
  rw [hid]
  by_cases hi : i = nodh + 1
  · rw [hi, set_self, set_self]
  · rw [set_ne _ _ hi, set_ne _ _ hi]
    exact set_ne _ _ hi

theorem fillNodHeader_holds {nod' : Nat} (h : p.Holds nod' [nod, 2]) :
    (fillNodHeader p nod' 6 onop).Holds nod' header.encode ∧
      SameOutside p (fillNodHeader p nod' 6 onop) nod' 8 := by
  simp only [holds_cons, holds_nil, and_true] at h
  obtain ⟨h0, h1⟩ := h
  unfold fillNodHeader
  dsimp only
  rw [setNodFields, h1]
  have h2 : (2 : UInt8).toNat = 2 := rfl
  rw [h2]
  constructor
  · have henc : header.encode = [nod, 8, 6, 52] ++ onop := rfl
    rw [henc, holds_append]
    refine ⟨?_, holds_write _ _ _⟩
    simp only [holds_cons, holds_nil, and_true]
    refine ⟨?_, ?_, ?_, ?_⟩
    · rw [write_out _ (by omega), set_ne _ _ (by omega), set_ne _ _ (by omega),
        set_ne _ _ (by omega), h0]
    · rw [write_out _ (by omega), set_ne _ _ (by omega), set_ne _ _ (by omega), set_self]
      rfl
    · rw [write_out _ (by omega), set_ne _ _ (by omega), set_self]
      rfl
    · rw [write_out _ (by omega), set_self]
      rfl
  · intro i hi
    have hlen : onop.length = 4 := rfl
    rw [write_out _ (by omega), set_ne _ _ (by omega), set_ne _ _ (by omega), set_ne _ _ (by omega)]

@[simp] theorem squeezed_last {k : UInt8} {x : List UInt8} :
    squeezed (squeezed os ++ [.opt k x]) = squeezed os ++ [.opt k x] := by
  simp

theorem used_last (os : List Opt) (k : UInt8) (x : List UInt8) :
    used (squeezed os ++ [.opt k x]) = used os + x.length + 2 := by
  unfold used
  rw [squeezed_last]
  simp [Nat.add_assoc]

theorem setNodHeader_stub (gap : Int) {p₁ : Mem}
    (hp₁ : setTcpopt p nod 2 = .ok (p₁, some (p.optOff + used os)))
    (h₁ : Shows p₁ D (squeezed os ++ [stub]) d) (hh₁ : SameHeader p p₁)
    (hf : firstOfKind nod os = none) (hfit : used os + 8 ≤ 40)
    (hgrow : used os + 8 ≤ 4 * D - 20 ∨ 4 * p.ihl + 4 * D + d.length < 65536) :
    ∃ p', setNodHeader gap p onop = .ok (p', some (p.optOff + used os + 2)) ∧
      Shows p' (grown D (used os + 2) 6) (squeezed os ++ [header]) d ∧ SameHeader p p' := by
  have hf' : firstOfKind nod (squeezed os) = none := by rw [firstOfKind_squeezed os (by decide), hf]
  have hused : used (squeezed os ++ [stub]) = used os + 2 := used_last os nod []
  have hu := h₁.used_le
  obtain ⟨p₂, e, hp₂, h₂, hh₂⟩ := addTcpoptBytes_room h₁ 6 (by omega)
    (by rw [hused, hh₁.ihl]; exact hgrow)
  have hroom := room_after 6 h₁.five_le hu
  rw [hused] at h₂ hroom
  rw [stub, squeezed_last] at h₂
  have hh₁₂ := hh₁.trans hh₂
  have hlen : (encode (squeezed os ++ [Opt.opt nod []])).length = used os + 2 := by simp
  obtain ⟨p₃, hp₃, hs₃⟩ := shiftTcpoptSpace_end h₂ (by rw [hlen]; omega)
    (show 0 < 6 by decide)
  rw [hlen, hh₁₂.optOff] at hp₃ hs₃
  have hstub : p₂.Holds (p.optOff + used os) [nod, 2] := by
    rw [← hh₁₂.optOff]
    exact h₂.area.mid
  have hstub₃ := hs₃.holds hstub (.inl (Nat.le_refl _))
  obtain ⟨hfill, hs₄⟩ := fillNodHeader_holds hstub₃
  obtain ⟨h₄, hh₄⟩ := h₂.replace_last [header] (by simp [header, onop])
    hroom (by simp [header, Opt.Ok, onop]; decide) (by
      rw [hh₁₂.optOff]
      exact (hs₃.mono (by simp) (by simp [header, onop, Nat.add_assoc])).trans hs₄) (by
      rw [hh₁₂.optOff]
      simpa using hfill)
  refine ⟨_, ?_, h₄, hh₁₂.trans hh₄⟩
  have htwo : ∀ q : Mem, q.Holds (p.optOff + used os) [nod, 2] →
      (q (p.optOff + used os + 1)).toNat = 2 := by
    intro q hq
    rw [(holds_cons.1 (holds_cons.1 hq).2).1]
    rfl
  unfold setNodHeader
  rw [hp₁, ok_bind]
  dsimp only
  rw [getNodHeader_stub h₁ hf', ok_bind]
  dsimp only
  rw [show (2 + onop.length) % 256 = 6 from rfl, hp₂, ok_bind]
  dsimp only
  rw [htwo p₂ hstub, Nat.add_assoc, hp₃, ok_bind]
  dsimp only
  rw [htwo p₃ hstub₃, getNodHeader_first gap [] h₄ hf' rfl, ok_bind]
  rfl

theorem setNodHeader_absent (gap : Int) (h : Shows p D os d)
    (ht : 4 * p.ihl + 4 * D + d.length < 65536)
    (hf : firstOfKind nod os = none) (hfit : used os + 8 ≤ 40)
    (hgrow : used os + 8 ≤ 4 * grown D (used os) 2 - 20 ∨
      4 * p.ihl + 4 * grown D (used os) 2 + d.length < 65536) :
    ∃ p', setNodHeader gap p onop = .ok (p', some (p.optOff + used os + 2)) ∧
      Shows p' (grown D (used os) 8) (squeezed os ++ [header]) d ∧ SameHeader p p' := by
  obtain ⟨p₁, hp₁, h₁, hh₁⟩ := setTcpopt_absent h ht (k := nod) (by decide) hf (by omega)
  obtain ⟨p', hp', h', hh'⟩ := setNodHeader_stub gap hp₁ h₁ hh₁ hf hfit hgrow
  rw [grown_grown h.five_le h.used_le] at h'
  exact ⟨p', hp', h', hh'⟩

/-- Once the stub has taken the packet past its length field, making room for the header faults. -/
theorem setNodHeader_fault (h : Shows p D os d) (ht : 4 * p.ihl + 4 * D + d.length < 65536)
    (hd : d.length < 65536) (hf : firstOfKind nod os = none) (hfit : used os + 8 ≤ 40)
    (hgrow : 4 * grown D (used os) 2 - 20 < used os + 8)
    (hover : 65536 ≤ 4 * p.ihl + 4 * grown D (used os) 2 + d.length) :
    setNodHeader gap p onop = .error .segv := by
  have hf' : firstOfKind nod (squeezed os) = none := by rw [firstOfKind_squeezed os (by decide), hf]
  obtain ⟨p₁, hp₁, h₁, hh₁⟩ := setTcpopt_absent h ht (k := nod) (by decide) hf (by omega)
  have hused : used (squeezed os ++ [.opt nod []]) = used os + 2 := used_last os nod []
  unfold setNodHeader
  rw [hp₁, ok_bind]
  dsimp only
  rw [getNodHeader_stub h₁ hf', ok_bind]
  dsimp only
  rw [show (2 + onop.length) % 256 = 6 from rfl,
    addTcpoptBytes_fault h₁ (by rw [hh₁.ihl]; exact hover) hd (by omega) (by omega), error_bind]

/-! ## The header's data -/

theorem fillNodHeaderData_holds {nod' : Nat} (h : p.Holds nod' header.encode) {id : List UInt8}
    (hid : id.length = 4) :
    (fillNodHeaderData p nod' (nod' + 2) id).Holds nod' (tag id).encode ∧
      SameOutside p (fillNodHeaderData p nod' (nod' + 2) id) nod' 12 := by
  have henc : header.encode = [nod, 8, 6, 52] ++ onop := rfl
  rw [henc, holds_append] at h
  obtain ⟨h, honop⟩ := h
  simp only [holds_cons, holds_nil, and_true, Nat.add_assoc, Nat.reduceAdd] at h
  obtain ⟨h0, h1, h2, h3⟩ := h
  -- the bytes of the header, as the successive stores leave them
  have htot : nodTotLen (p.set (nod' + 1) 12) (nod' + 2) = 6 := by
    unfold nodTotLen
    rw [set_ne _ _ (by omega), h2]
    rfl
  have hbyte : ∀ b c : UInt8, ((p.set (nod' + 1) b).set (nod' + 2) c) (nod' + 2 + 1) = 52 := by
    intro b c
    rw [set_ne _ _ (by omega), set_ne _ _ (by omega), Nat.add_assoc, h3]
  have hmem : fillNodHeaderData p nod' (nod' + 2) id =
      (((p.set (nod' + 1) 12).set (nod' + 2) 10).set (nod' + 2 + 1) 84).write (nod' + 8) id := by
    unfold fillNodHeaderData setNodHdrLen nodHdrLen nodIdlen
    dsimp only
    rw [h1, hid, show UInt8.ofNat ((8 : UInt8).toNat + 4) = 12 from rfl, htot,
      show UInt8.ofNat (6 + 4) = 10 from rfl, hbyte, set_self]
    rfl
  rw [hmem]
  have htag : (tag id).encode = ([nod, 12, 10, 84] ++ onop) ++ id := by
    simp only [tag, Opt.encode, hid, List.length_cons, List.length_append, onop]
    rfl
  constructor
  · rw [htag, holds_append, holds_append]
    refine ⟨⟨?_, ?_⟩, holds_write _ _ _⟩
    · simp only [holds_cons, holds_nil, and_true, Nat.add_assoc, Nat.reduceAdd]
      refine ⟨?_, ?_, ?_, ?_⟩
      · rw [write_out _ (by omega), set_ne _ _ (by omega), set_ne _ _ (by omega),
          set_ne _ _ (by omega), h0]
      · rw [write_out _ (by omega), set_ne _ _ (by omega), set_ne _ _ (by omega), set_self]
      · rw [write_out _ (by omega), set_ne _ _ (by omega), set_self]
      · rw [write_out _ (by omega), set_self]
    · refine honop.congr fun i h₁ h₂ => ?_
      simp only [List.length_cons, List.length_nil, onop] at h₁ h₂
      rw [write_out _ (by omega), set_ne _ _ (by omega), set_ne _ _ (by omega),
        set_ne _ _ (by omega)]
  · intro i hi
    rw [write_out _ (by omega), set_ne _ _ (by omega), set_ne _ _ (by omega), set_ne _ _ (by omega)]

theorem used_header (os : List Opt) : used (squeezed os ++ [header]) = used os + 8 :=
  used_last os nod _

theorem squeezed_header (os : List Opt) :
    squeezed (squeezed os ++ [header]) = squeezed os ++ [header] := squeezed_last

theorem setNodHeaderData_of_header {q : Mem} {a : Nat} {id : List UInt8}
    (hset : setNodHeader gap p onop = .ok (q, some (a + 2)))
    (hnod : getTcpopt q nod = .ok (some a)) (h : q.Holds a header.encode) :
    setNodHeaderData gap p onop id = (do
      let (p, error) ← addTcpoptBytes q id.length
      if error = 0 then
        let (p, free) ← getTcpoptFreespace p
        if free ≥ id.length then
          let (p, _) ← shiftTcpoptSpace p (a + 2 + nodHdrLen p (a + 2)) id.length
          return fillNodHeaderData p a (a + 2) id
        else return p
      else return p) := by
  obtain ⟨-, hidlen, hhdrlen⟩ := nodFields_of_holds h
  unfold setNodHeaderData
  rw [hset, ok_bind]
  dsimp only
  rw [hnod, ok_bind]
  dsimp only
  rw [hidlen, hhdrlen]
  rfl

theorem setNodHeaderData_eq {p' : Mem} {id : List UInt8}
    (h : Shows p' D (squeezed os ++ [header]) d) (hf : firstOfKind nod (squeezed os) = none)
    {o : Nat} (ho : p'.optOff = o)
    (hset : setNodHeader gap p onop = .ok (p', some (o + used os + 2))) :
    setNodHeaderData gap p onop id = (do
      let (p, error) ← addTcpoptBytes p' id.length
      if error = 0 then
        let (p, free) ← getTcpoptFreespace p
        if free ≥ id.length then
          let (p, _) ← shiftTcpoptSpace p
            (o + used os + 2 + nodHdrLen p (o + used os + 2)) id.length
          return fillNodHeaderData p (o + used os) (o + used os + 2) id
        else return p
      else return p) := by
  subst ho
  exact setNodHeaderData_of_header hset (getTcpopt_at h hf rfl) h.area.mid

theorem setNodHeaderData_fill {p₁ : Mem}
    (hp₁ : setNodHeader gap p onop = .ok (p₁, some (p.optOff + used os + 2)))
    (h₁ : Shows p₁ D (squeezed os ++ [header]) d) (hh₁ : SameHeader p p₁)
    (hf : firstOfKind nod os = none) {id : List UInt8} (hid : id.length = 4)
    (hfit : used os + 12 ≤ 40) (hfull : 4 * D - 20 < used os + 12)
    (hover : 4 * p.ihl + 4 * D + d.length < 65536) :
    ∃ p', setNodHeaderData gap p onop id = .ok p' ∧
      Shows p' (grown D (used os + 8) 4) (squeezed os ++ [tag id]) d ∧ SameHeader p p' := by
  have hf' : firstOfKind nod (squeezed os) = none := by rw [firstOfKind_squeezed os (by decide), hf]
  have hused := used_header os
  have hu := h₁.used_le
  obtain ⟨p₂, hp₂, h₂, hh₂⟩ := addTcpoptBytes_grow h₁ 4 (by rw [hh₁.ihl]; exact hover)
    (by omega) (by omega)
  have hroom := room_after 4 h₁.five_le hu
  rw [hused] at h₂ hroom
  obtain ⟨p₃, hp₃, h₃, hh₃⟩ := getTcpoptFreespace_shows h₂
  rw [squeezed_header] at h₃ hp₃
  rw [squeezed_header] at h₃
  rw [hused] at hp₃
  have hlen : (encode (squeezed os ++ [header])).length = used os + 8 := by
    rw [← squeezed_header, length_encode_squeezed, hused]
  have hh₁₃ := hh₁.trans (hh₂.trans hh₃)
  obtain ⟨p₄, hp₄, hs₄⟩ := shiftTcpoptSpace_end h₃ (by omega) (show 0 < 4 by decide)
  rw [hlen, hh₁₃.optOff] at hp₄ hs₄
  have hheader : p₃.Holds (p.optOff + used os) header.encode := by
    rw [← hh₁₃.optOff]
    exact h₃.area.mid
  obtain ⟨hfill, hs₅⟩ := fillNodHeaderData_holds (hs₄.holds hheader (.inl (Nat.le_refl _))) hid
  have henc : (tag id).encode.length = 12 := by simp [tag, onop, hid]
  obtain ⟨h₅, hh₅⟩ := h₃.replace_last [tag id] (by simp [henc, header, onop])
    (by simpa [henc] using hroom) (by simp [tag, Opt.Ok, onop, hid]; decide) (by
      rw [hh₁₃.optOff]
      simp only [encode_cons, encode_nil, List.append_nil, henc, length_encode_squeezed]
      exact (hs₄.mono (by omega) (by omega)).trans hs₅) (by
      rw [hh₁₃.optOff]
      simpa using hfill)
  refine ⟨_, ?_, h₅, hh₁₃.trans hh₅⟩
  obtain ⟨-, -, hhdrlen⟩ := nodFields h₃
  rw [length_encode_squeezed, hh₁₃.optOff] at hhdrlen
  rw [setNodHeaderData_eq h₁ hf' hh₁.optOff hp₁, hid, hp₂, ok_bind]
  dsimp only
  rw [if_pos rfl, hp₃, ok_bind]
  dsimp only
  rw [if_pos (by omega), hhdrlen, show p.optOff + used os + 2 + (52 : UInt8).toNat / 8 =
    p.optOff + (used os + 8) from rfl, hp₄, ok_bind]
  rfl

theorem setNodHeaderData_grow (gap : Int) (h : Shows p D os d)
    (ht : 4 * p.ihl + 4 * D + d.length < 65536) (hf : firstOfKind nod os = none) {id : List UInt8}
    (hid : id.length = 4) (hfit : used os + 12 ≤ 40) (hfull : 4 * D - 20 < used os + 12)
    (hover : 4 * p.ihl + 4 * grown D (used os) 8 + d.length < 65536) :
    ∃ p', setNodHeaderData gap p onop id = .ok p' ∧
      Shows p' (grown D (used os) 12) (squeezed os ++ [tag id]) d ∧ SameHeader p p' := by
  have hu := h.used_le
  have h5 := h.five_le
  have hle : grown D (used os) 2 ≤ grown D (used os) 8 := by
    unfold grown
    rw [dwords_eq, dwords_eq]
    omega
  have hshort : 4 * grown D (used os) 8 - 20 < used os + 12 := by
    unfold grown
    rw [dwords_eq]
    omega
  obtain ⟨p₁, hp₁, h₁, hh₁⟩ := setNodHeader_absent gap h ht hf (by omega) (.inr (by omega))
  obtain ⟨p', hp', h', hh'⟩ := setNodHeaderData_fill hp₁ h₁ hh₁ hf hid hfit hshort hover
  rw [grown_grown h5 hu] at h'
  exact ⟨p', hp', h', hh'⟩

/-- With room enough for the data already, the header stays empty. -/
theorem setNodHeaderData_free (gap : Int) (h : Shows p D os d)
    (ht : 4 * p.ihl + 4 * D + d.length < 65536) (hf : firstOfKind nod os = none) {id : List UInt8}
    (hid : id.length = 4) (hfit : used os + 12 ≤ 40) (hfree : used os + 12 ≤ 4 * D - 20) :
    ∃ p', setNodHeaderData gap p onop id = .ok p' ∧ Shows p' D (squeezed os ++ [header]) d ∧
      SameHeader p p' := by
  have hf' : firstOfKind nod (squeezed os) = none := by rw [firstOfKind_squeezed os (by decide), hf]
  obtain ⟨p₁, hp₁, h₁, hh₁⟩ := setNodHeader_absent gap h ht hf (by omega)
    (.inl (by rw [grown_eq_self (by omega)]; omega))
  rw [grown_eq_self (by omega)] at h₁
  obtain ⟨p₂, hp₂, h₂, hh₂⟩ := addTcpoptBytes_free h₁ 4 (by rw [used_header]; omega)
  rw [squeezed_header] at h₂
  refine ⟨p₂, ?_, h₂, hh₁.trans hh₂⟩
  rw [setNodHeaderData_eq h₁ hf' hh₁.optOff hp₁, hid, hp₂, ok_bind]
  rfl

/-- A packet that the first two stages take past its length field faults. -/
theorem setNodHeaderData_fault (h : Shows p D os d) (ht : 4 * p.ihl + 4 * D + d.length < 65536)
    (hf : firstOfKind nod os = none) {id : List UInt8} (hid : id.length = 4)
    (hfit : used os + 12 ≤ 40) (hover : 65536 ≤ 4 * p.ihl + 4 * grown D (used os) 8 + d.length) :
    setNodHeaderData gap p onop id = .error .segv := by
  have hu := h.used_le
  have h5 := h.five_le
  have hf' : firstOfKind nod (squeezed os) = none := by rw [firstOfKind_squeezed os (by decide), hf]
  have hshort : 4 * grown D (used os) 8 - 20 < used os + 12 := by
    unfold grown at hover ⊢
    rw [dwords_eq] at hover ⊢
    omega
  by_cases hover₂ : 65536 ≤ 4 * p.ihl + 4 * grown D (used os) 2 + d.length
  · unfold setNodHeaderData
    rw [setNodHeader_fault h ht (by omega) hf (by omega) (by
      unfold grown at hover₂ ⊢
      rw [dwords_eq] at hover₂ ⊢
      omega) hover₂, error_bind]
  · obtain ⟨p₁, hp₁, h₁, hh₁⟩ := setNodHeader_absent gap h ht hf (by omega) (.inr (by omega))
    have hused := used_header os
    rw [setNodHeaderData_eq h₁ hf' hh₁.optOff hp₁, hid,
      addTcpoptBytes_fault h₁ (by rw [hh₁.ihl]; exact hover) (by omega) (by omega) (by omega),
      error_bind]

/-! ## Reading the tag back -/

/-- After `set_nod_header_data` with the ID `id`, `get_nod_header_data` gives four bytes, those of
`id`. -/
def TagReadsBack (gap : Int) (p : Mem) (id : List UInt8) : Prop :=
  ∃ p' a, setNodHeaderData gap p onop id = .ok p' ∧
    getNodHeaderData gap p' onop = .ok ⟨4, some a⟩ ∧ p'.read a 4 = id

theorem not_tagReadsBack_free (h : WellFormed p os) (hf : firstOfKind nod os = none)
    {id : List UInt8} (hid : id.length = 4) (hfit : used os + 12 ≤ 40)
    (hfree : used os + 12 ≤ 4 * p.doff - 20) : ¬ TagReadsBack gap p id := by
  have hs := h.shows _ rfl
  have := h.totLen
  have := totLen_lt p
  obtain ⟨p₁, hp₁, h₁, -⟩ := setNodHeaderData_free gap hs (by rw [length_read]; omega) hf hid
    hfit hfree
  rintro ⟨p', a, hset, hget, -⟩
  rw [hp₁, Except.ok.injEq] at hset
  subst hset
  rw [getNodHeaderData_header h₁ (by rw [firstOfKind_squeezed os (by decide), hf])] at hget
  cases hget

/-- **The tag can be read back exactly when the area has to grow for the header's data.** With room
for all twelve bytes, `add_tcpopt_bytes` reports "no growth needed" like a failure and the data is
left out; and the first two stages must keep the packet within its length field. -/
theorem tagReadsBack_iff (gap : Int) (p : Mem) (os : List Opt) (h : WellFormed p os)
    (hf : firstOfKind nod os = none) (hfit : used os + 12 ≤ 40) (id : List UInt8)
    (hid : id.length = 4) :
    TagReadsBack gap p id ↔ 4 * p.doff - 20 < used os + 12 ∧
      p.totLen + 4 * dwords (8 - (4 * p.doff - 20 - used os)) < 65536 := by
  have hs := h.shows _ rfl
  have htot := h.totLen
  have hlt := totLen_lt p
  have hg : grown p.doff (used os) 8 = p.doff + dwords (8 - (4 * p.doff - 20 - used os)) := rfl
  constructor
  · intro hread
    by_cases hfull : 4 * p.doff - 20 < used os + 12
    · refine ⟨hfull, Nat.lt_of_not_le fun hover => ?_⟩
      obtain ⟨p', -, hset, -⟩ := hread
      rw [setNodHeaderData_fault hs (by rw [length_read]; omega) hf hid hfit
        (by rw [length_read, hg]; omega)] at hset
      cases hset
    · exact absurd hread (not_tagReadsBack_free h hf hid hfit (by omega))
  · rintro ⟨hfull, hover⟩
    obtain ⟨p', hset, h', -⟩ := setNodHeaderData_grow gap hs (by rw [length_read]; omega) hf
      hid hfit hfull (by rw [length_read, hg]; omega)
    obtain ⟨hget, hread⟩ := getNodHeaderData_tag gap hid h'
      (by rw [firstOfKind_squeezed os (by decide), hf])
    exact ⟨p', _, hset, hget, hread⟩

/-- A segment without data and with `words` words of zeros as its options. -/
def bareSegment (words : Nat) : Mem :=
  Mem.ofList ([0x45, 0, 0, UInt8.ofNat (40 + 4 * words), 0, 0, 0, 0, 64, 6, 0, 0,
    10, 0, 0, 1, 10, 0, 0, 2, 0x30, 0x39, 0, 80, 0, 0, 0, 1, 0, 0, 0, 0,
    UInt8.ofNat ((5 + words) * 16), 16, 0xff, 0xff, 0, 0, 0, 0])

theorem tagReadsBack_bare :
    WellFormed (bareSegment 0) [] ∧ TagReadsBack 0 (bareSegment 0) [1, 2, 3, 4] :=
  ⟨by decide, (tagReadsBack_iff 0 (bareSegment 0) [] (by decide) rfl (by decide) [1, 2, 3, 4] rfl).2
    (by decide)⟩

/-- Three words of padding are room for the whole tag. -/
theorem not_tagReadsBack_padded : WellFormed (bareSegment 3) [] ∧ firstOfKind nod [] = none ∧
    used [] + 12 ≤ 40 ∧ ¬ TagReadsBack 0 (bareSegment 3) [1, 2, 3, 4] :=
  ⟨by decide, rfl, by decide, not_tagReadsBack_free
    (show WellFormed (bareSegment 3) [] by decide) rfl rfl (by decide) (by decide)⟩

end Opennop
