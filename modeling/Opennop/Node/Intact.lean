import Opennop.Node.Ordinary

/-!
# Packets that stand for other packets

What an endpoint gets in place of the packet that was sent to it. Of the two headers, only the
lengths, the checksums and the sequence number may differ, and of the options only those of the
accelerators (tag and flag) and the MSS that they lower; NOPs do not count. `Stands` follows this
through the rewriting with whatever data the packet has on its way, and `Intact` is what is to come
out: the data and the sequence number are those that were sent.
-/

namespace Opennop

open Mem

/-! ## Headers -/

/-- The bytes that a node may write: total length and IP checksum, sequence number, data offset and
TCP checksum. -/
def Mem.Rewritable (p : Mem) (i : Nat) : Prop :=
  (i = 2 ∨ i = 3 ∨ i = 10 ∨ i = 11) ∨ (p.tcpOff + 4 ≤ i ∧ i < p.tcpOff + 8) ∨ i = p.tcpOff + 12 ∨
    i = p.tcpOff + 16 ∨ i = p.tcpOff + 17

/-- The two headers are the same up to these bytes. -/
def SameFields (p q : Mem) : Prop := ∀ i < p.optOff, ¬ p.Rewritable i → q i = p i

namespace SameFields

variable {p q r : Mem}

theorem refl (p : Mem) : SameFields p p := fun _ _ _ => rfl

theorem ihl (h : SameFields p q) (hi : 5 ≤ p.ihl) : q.ihl = p.ihl := by
  unfold Mem.ihl
  rw [h 0 (by unfold optOff; omega) (by unfold Rewritable tcpOff; omega)]

theorem tcpOff (h : SameFields p q) (hi : 5 ≤ p.ihl) : q.tcpOff = p.tcpOff := by
  unfold Mem.tcpOff
  rw [h.ihl hi]

theorem trans (h : SameFields p q) (h' : SameFields q r) (hi : 5 ≤ p.ihl) : SameFields p r := by
  intro i hlt hne
  have hoff := h.tcpOff hi
  have hlt' : i < q.optOff := by
    unfold optOff
    rw [hoff]
    exact hlt
  have hne' : ¬ q.Rewritable i := by
    unfold Rewritable
    rw [hoff]
    exact hne
  rw [h' i hlt' hne', h i hlt hne]

theorem ipByte (h : SameFields p q) (hi : 5 ≤ p.ihl) {i : Nat} (hlow : 4 ≤ i)
    (hne : i < 10 ∨ 12 ≤ i) (hlt : i < 20) :
    q i = p i :=
  h i (by unfold optOff Mem.tcpOff; omega) (by unfold Rewritable Mem.tcpOff; omega)

theorem tcpByte (h : SameFields p q) (hi : 5 ≤ p.ihl) {i : Nat} (hport : i < 4 ∨ 8 ≤ i)
    (hd : i ≠ 12) (hsum : i < 16 ∨ 18 ≤ i) (hlt : i < 20) : q (p.tcpOff + i) = p (p.tcpOff + i) :=
  h _ (by unfold optOff; omega) (by unfold Rewritable Mem.tcpOff; omega)

theorem ends (h : SameFields p q) (hi : 5 ≤ p.ihl) : SameEnds p q := by
  have hoff := h.tcpOff hi
  refine ⟨h.ihl hi, h.ipByte hi (by omega) (by omega) (by omega),
    le32_congr fun i h₁ h₂ => h.ipByte hi (by omega) (by omega) (by omega),
    le32_congr fun i h₁ h₂ => h.ipByte hi (by omega) (by omega) (by omega), ?_, ?_, ?_⟩
  · unfold source
    rw [hoff]
    refine le16_congr fun i h₁ h₂ => ?_
    obtain ⟨j, rfl⟩ := Nat.exists_eq_add_of_le h₁
    exact h.tcpByte hi (by omega) (by omega) (by omega) (by omega)
  · unfold dest
    rw [hoff]
    refine le16_congr fun i h₁ h₂ => ?_
    obtain ⟨j, rfl⟩ := Nat.exists_eq_add_of_le h₁
    rw [Nat.add_assoc]
    exact h.tcpByte hi (by omega) (by omega) (by omega) (by omega)
  · unfold flags
    rw [hoff, h.tcpByte hi (by omega) (by omega) (by omega) (by omega)]

end SameFields

section Fields

variable {p q : Mem}

theorem SameHeader.sameFields (h : SameHeader p q) : SameFields p q := by
  intro i hlt hne
  unfold Rewritable at hne
  exact h i hlt (by omega) (by omega) (by omega)

theorem sameFields_setSeq (p : Mem) (v : Nat) : SameFields p (p.setSeq v) := by
  intro i _ hne
  unfold Rewritable at hne
  exact setSeq_out p v (by omega)

theorem sameFields_checksum (p : Mem) : SameFields p (checksum p) := by
  intro i _ hne
  unfold Rewritable at hne
  exact checksum_out p (by omega) (by omega)

theorem seq_checksum (hi : 5 ≤ p.ihl) : (checksum p).seq = p.seq := by
  unfold seq
  rw [tcpOff_checksum hi]
  refine be32_congr fun i h₁ h₂ => ?_
  obtain ⟨j, rfl⟩ := Nat.exists_eq_add_of_le h₁
  rw [Nat.add_assoc]
  exact checksum_tcp hi (by omega)

theorem sameFields_cut (p : Mem) {n : Nat} (hn : p.optOff ≤ n) : SameFields p (p.cut n) :=
  fun _ hlt _ => cut_below p (by omega)

end Fields

/-! ## Options -/

/-- The kinds of the options that the accelerators set. -/
def ownKind (k : UInt8) : Bool := k == nod || k == compressed || k == mss

def foreign (os : List Opt) : List Opt := (squeezed os).filter fun o => !ownKind o.kind

section Foreign

variable {k : UInt8} {os os' : List Opt}

@[simp] theorem foreign_squeezed (os : List Opt) : foreign (squeezed os) = foreign os := by
  unfold foreign
  rw [squeezed_squeezed]

theorem foreign_append (os os' : List Opt) : foreign (os ++ os') = foreign os ++ foreign os' := by
  unfold foreign
  rw [squeezed_append, List.filter_append]

theorem foreign_own (hk : ownKind k = true) (x : List UInt8) (os : List Opt) :
    foreign (.opt k x :: os) = foreign os := by
  unfold foreign
  rw [squeezed_opt, List.filter_cons_of_neg (by simp [Opt.kind, hk])]

theorem foreign_cons (o : Opt) (h : foreign os = foreign os') :
    foreign (o :: os) = foreign (o :: os') := by
  rw [← List.singleton_append, foreign_append, h, ← foreign_append, List.singleton_append]

theorem foreign_overwriteFirst (hk : ownKind k = true) (x : List UInt8) (os : List Opt) :
    foreign (overwriteFirst k x os) = foreign os := by
  induction os with
  | nil => rfl
  | cons o os ih =>
    rw [overwriteFirst]
    by_cases ho : (o.kind == k && o.encode.length == x.length + 2) = true
    · rw [if_pos ho, foreign_own hk]
      rw [Bool.and_eq_true, beq_iff_eq] at ho
      cases o with
      | nop => rfl
      | opt k' d =>
        obtain rfl : k' = k := ho.1
        rw [foreign_own hk]
    · rw [if_neg ho]
      exact foreign_cons o ih

theorem foreign_setOption (hk : ownKind k = true) (x : List UInt8) (D : Nat) (os : List Opt) :
    foreign (setOption k x D os).2 = foreign os := by
  unfold setOption
  split
  · exact foreign_overwriteFirst hk x os
  · split
    · dsimp only
      rw [foreign_own hk, foreign_squeezed]
    · exact foreign_squeezed os

theorem foreign_tagged (os : List Opt) (x : List UInt8) :
    foreign (squeezed os ++ [tag x]) = foreign os := by
  have htag : foreign [tag x] = [] := foreign_own (by decide) _ []
  rw [foreign_append, foreign_squeezed, htag, List.append_nil]

end Foreign

/-! ## Standing for a packet -/

/-- The packet `m`, with `D` words of TCP header, the options `os'` and the data `d`, is on its way
in place of `p` with the options `os`. -/
structure Stands (p : Mem) (os : List Opt) (m : Mem) (D : Nat) (os' : List Opt) (d : List UInt8) :
    Prop where
  shows : Shows m D os' d
  fields : SameFields p m
  foreign : foreign os' = foreign os

/-- What was sent has arrived: the same data with the same sequence number, under headers and
options that are the same up to what the accelerators may write. -/
structure Intact (p : Mem) (os : List Opt) (q : Mem) : Prop where
  fields : SameFields p q
  seq : q.seq = p.seq
  payload : q.payload = p.payload
  options : ∃ os', WellFormed q os' ∧ foreign os' = foreign os

namespace Stands

variable {p m m' : Mem} {os os' os'' : List Opt} {D D' : Nat} {d d' : List UInt8}

theorem refl (h : WellFormed p os) : Stands p os p p.doff os p.payload :=
  ⟨h.payload_shows.1, SameFields.refl p, rfl⟩

theorem trans (h : Stands p os m D os' d) (h' : Stands m os' m' D' os'' d') (hi : 5 ≤ p.ihl) :
    Stands p os m' D' os'' d' :=
  ⟨h'.shows, h.fields.trans h'.fields hi, h'.foreign.trans h.foreign⟩

theorem header (h : Stands p os m D os' d) (hi : 5 ≤ p.ihl) (hm : Shows m' D' os'' d')
    (hh : SameHeader m m') (hos : Opennop.foreign os'' = Opennop.foreign os') :
    Stands p os m' D' os'' d' :=
  h.trans ⟨hm, hh.sameFields, hos⟩ hi

theorem checksum (h : Stands p os m D os' d) (hi : 5 ≤ p.ihl) : Stands p os (checksum m) D os' d :=
  h.trans ⟨h.shows.checksum, sameFields_checksum m, rfl⟩ hi

theorem trimmed (h : Stands p os m D os' d) (hi : 5 ≤ p.ihl)
    (ht : 4 * p.ihl + 4 * D + d.length < 65536) :
    Stands p os m.trimmed D os' d ∧ m.trimmed.trimmed = m.trimmed ∧ m.trimmed.seq = m.seq := by
  have hihl := h.fields.ihl hi
  have h5 := h.shows.five_le
  have htot := h.shows.totLen
  rw [hihl, Nat.mod_eq_of_lt ht] at htot
  have hlen : m.tcpOff + 4 * D + d.length ≤ m.totLen := by
    unfold tcpOff
    omega
  obtain ⟨-, -, htotcut, hseq⟩ :=
    sameEnds_cut m h.shows.ihl (show m.tcpOff + 20 ≤ m.totLen by omega)
  refine ⟨h.trans ⟨h.shows.cut hlen, sameFields_cut m (by unfold optOff; omega), rfl⟩ hi, ?_, hseq⟩
  rw [Mem.trimmed, Mem.trimmed, htotcut]
  exact cut_cut m m.totLen

theorem intact (h : Stands p os m D os' p.payload) (hi : 5 ≤ p.ihl)
    (ht : 4 * p.ihl + 4 * D + p.payload.length < 65536) (hseq : m.seq = p.seq) : Intact p os m := by
  have hihl := h.fields.ihl hi
  have htot := h.shows.totLen
  rw [hihl, Nat.mod_eq_of_lt ht] at htot
  refine ⟨h.fields, hseq, h.shows.payload (by rwa [hihl]), os',
    ⟨h.shows.ihl, ?_, ?_, ?_⟩, h.foreign⟩
  · rw [h.shows.doff]
    exact h.shows.five_le
  · rw [h.shows.doff, hihl, htot]
    omega
  · rw [h.shows.doff]
    exact h.shows.area

end Stands

/-! ## Compression on the way -/

section Compression

variable {q : Qlz} {p : Mem} {D : Nat} {os : List Opt} {d : List UInt8}

theorem setFlag_sameHeader (h : Shows p D os d) (hd : d.length < 65536) {x : List UInt8}
    (hx : 4 * p.ihl + 4 * D + x.length % 65536 < 65536) (v : Nat) {r : Mem × Int}
    (hr : setTcpOption (replaceData p x) compressed 3 v = .ok r) : SameHeader p r.1 := by
  obtain ⟨h₁, hh₁⟩ := replaceData_shows h hd x
  have hlen : (x.take (x.length % 65536)).length = x.length % 65536 := by
    rw [List.length_take]
    omega
  obtain ⟨p₂, r₂, hp₂, -, hh₂, -⟩ :=
    setTcpOption_shows h₁ (by rw [hh₁.ihl, hlen]; exact hx) (k := compressed)
    (by decide) (show 2 ≤ 3 by decide) (by decide) v
  obtain rfl : (p₂, r₂) = r := Except.ok.inj (hp₂.symm.trans hr)
  exact hh₁.trans hh₂

theorem tcpCompress_sameFields (h : Shows p D os d) (ht : 4 * p.ihl + 4 * D + d.length < 65536)
    (compression lzbuffer stateCompress : Bool) :
    Post (tcpCompress q compression lzbuffer stateCompress p) fun r => SameFields p r.1 := by
  by_cases ha : Attempted q compression lzbuffer stateCompress p
  · obtain ⟨ha₁, ha₂, ha₃, ha₄, ha₅⟩ := ha
    have hless : (qlzCompress q p).length % 65536 < d.length := by rwa [h.dataLen (by omega)] at ha₅
    unfold tcpCompress
    rw [if_pos ha₁, if_pos ha₂, if_pos ha₃, if_pos ha₄, if_pos ha₅]
    refine Post.bind (P := fun r => SameHeader p r.1)
      (fun r hr => setFlag_sameHeader h (by omega) (by omega) 1 hr) fun r hr => Post.ok ?_
    exact hr.sameFields.trans (sameFields_setSeq _ _) h.ihl
  · obtain ⟨r, hr⟩ := tcpCompress_unchanged ha
    rw [hr]
    exact Post.ok (SameFields.refl p)

/-- `tcp_decompress` changes no other field, as long as the data fits. -/
theorem tcpDecompress_sameFields (h : Shows p D os d) (hd : d.length < 65536)
    (lzbuffer stateDecompress : Bool)
    (hx : 4 * p.ihl + 4 * D + (q.decompress fun k => p (p.dataOff + k)).length % 65536 < 65536) :
    Post (tcpDecompress q lzbuffer stateDecompress p) fun r => SameFields p r.1 := by
  unfold tcpDecompress
  split
  · split
    · split
      · refine Post.bind (P := fun r => SameHeader p r.1)
          (fun r hr => setFlag_sameHeader h hd hx 0 hr) fun r hr => Post.ok ?_
        exact hr.sameFields.trans (sameFields_setSeq _ _) h.ihl
      · exact Post.ok (SameFields.refl p)
    · exact Post.ok (SameFields.refl p)
  · exact Post.ok (SameFields.refl p)

end Compression

end Opennop
