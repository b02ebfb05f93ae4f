import Opennop.Packet.Compression
import Opennop.Packet.SetOption

/-!
# What a rewriting leaves alone, whatever the options are

Here nothing is known of the options: the option area and the data are any bytes, and the TCP header
length may be below five words. The option functions write behind the fixed TCP header only, but for
the total length and the data offset, and they change these two together: `Grown p p' g` says that
`p'` is `p` with `g` words more of TCP header, up to the options and the data.
-/

namespace Opennop

open Mem

/-! ## Bytes that stay -/

/-- The memories agree below `k`. -/
def SameBelow (k : Nat) (p p' : Mem) : Prop := ∀ i < k, p' i = p i

namespace SameBelow

variable {k a : Nat} {p p' p'' : Mem}

theorem refl (k : Nat) (p : Mem) : SameBelow k p p := fun _ _ => rfl

theorem trans (h : SameBelow k p p') (h' : SameBelow k p' p'') : SameBelow k p p'' :=
  fun i hi => (h' i hi).trans (h i hi)

theorem set (p : Mem) (b : UInt8) (ha : k ≤ a) : SameBelow k p (p.set a b) :=
  fun i hi => set_ne p b (by omega)

theorem move (p : Mem) (src n : Nat) (ha : k ≤ a) : SameBelow k p (p.move a src n) :=
  fun i hi => move_out p (.inl (by omega))

theorem fill (p : Mem) (n : Nat) (b : UInt8) (ha : k ≤ a) : SameBelow k p (p.fill a n b) :=
  fun i hi => fill_out p b (.inl (by omega))

theorem write (p : Mem) (bs : List UInt8) (ha : k ≤ a) : SameBelow k p (p.write a bs) :=
  fun i hi => write_out p (.inl (by omega))

end SameBelow

/-! ## The option area -/

section Area

variable {p : Mem} {opt n : Nat}

theorem getTcpopt_ge (p : Mem) (k : UInt8) :
    Post (getTcpopt p k) fun o => ∀ a, o = some a → p.optOff ≤ a := by
  refine Post.bind (P := fun _ => True) (fun _ _ => trivial) fun i _ => Post.ok fun a ha => ?_
  cases i with
  | none => cases ha
  | some i =>
    cases ha
    exact Nat.le_add_right _ _

theorem removeByte_below (p : Mem) (i : Nat) (hn : 0 < n) :
    SameBelow opt p (removeByte p opt n i) :=
  (SameBelow.move p _ _ (by omega)).trans (SameBelow.set _ 0 (by omega))

theorem dropNops_below (p : Mem) (i : Nat) (hn : 0 < n) :
    Post (dropNops opt n i p) (SameBelow opt p) := by
  refine Post.loop (I := SameBelow opt p) (fun q hq => ?_) (SameBelow.refl opt p)
  unfold nopPass
  split
  · exact Post.ok (hq.trans (removeByte_below q i hn))
  · exact Post.ok hq

theorem removeTcpoptNop_below (p : Mem) : Post (removeTcpoptNop p) (SameBelow p.optOff p) := by
  have hpass : ∀ s : Mem × Nat, SameBelow p.optOff p s.1 →
      Post (removeNopPass p.optOff p.areaLen s)
        (Pass.Sat (fun s' => SameBelow p.optOff p s'.1) (SameBelow p.optOff p)) := by
    rintro ⟨q, i⟩ hq
    by_cases hlt : i < p.areaLen
    · simp only [removeNopPass, if_pos hlt]
      exact Post.bind (dropNops_below q i (by omega)) fun q' hq' => Post.ok (hq.trans hq')
    · simp only [removeNopPass, if_neg hlt]
      exact Post.ok hq
  unfold removeTcpoptNop
  split
  · exact Post.loop hpass (SameBelow.refl _ p)
  · exact Post.ok (SameBelow.refl _ p)

theorem getTcpoptFreespace_below (p : Mem) :
    Post (getTcpoptFreespace p) fun r => SameBelow p.optOff p r.1 := by
  refine Post.bind (removeTcpoptNop_below p) fun q hq => ?_
  split
  · refine Post.bind (P := fun _ => True) (fun _ _ => trivial) fun o _ => ?_
    cases o with
    | none => exact Post.ok hq
    | some i => exact Post.ok hq
  · exact Post.ok hq

theorem dwords_mono {m n : Nat} (h : m ≤ n) : dwords m ≤ dwords n := by
  rw [dwords_eq, dwords_eq]
  omega

theorem getTcpoptAddoffNeeded_below (p : Mem) (bytes : Nat) :
    Post (getTcpoptAddoffNeeded p bytes) fun r => SameBelow p.optOff p r.1 ∧
      r.2 ≤ dwords bytes := by
  refine Post.bind (getTcpoptFreespace_below p) fun r hr => ?_
  obtain ⟨q, optspace⟩ := r
  dsimp only
  split
  · exact Post.ok ⟨hr, dwords_mono (Nat.sub_le _ _)⟩
  · exact Post.ok ⟨hr, Nat.zero_le _⟩

theorem shiftTcpoptSpace_sameBelow {location bytes : Nat} (hloc : p.optOff ≤ location)
    (hb : 0 < bytes) :
    Post (shiftTcpoptSpace p location bytes) fun r => SameBelow p.optOff p r.1 := by
  refine Post.bind (P := fun _ => True) (fun _ _ => trivial) fun o _ => ?_
  cases o with
  | none => exact Post.ok (SameBelow.refl _ p)
  | some optend =>
    refine Post.ok (SameBelow.trans ?_ (SameBelow.set _ 90 (by omega)))
    refine SameBelow.trans ?_ (SameBelow.set _ 65 hloc)
    exact (SameBelow.move p _ _ (by omega)).trans (SameBelow.fill _ _ 0 hloc)

end Area

/-! ## Longer headers -/

/-- `p'` is `p` with `g` words more of TCP header, up to the options and the data. -/
structure Grown (p p' : Mem) (g : Nat) : Prop where
  header : SameHeader p p'
  reserved : (p' (p.tcpOff + 12)).toNat % 16 = (p (p.tcpOff + 12)).toNat % 16
  doff : p'.doff = p.doff + g
  totLen : p'.totLen = (p.totLen + 4 * g) % 65536

namespace Grown

variable {p p' p'' : Mem} {g g' : Nat}

theorem of_below (h : SameBelow p.optOff p p') : Grown p p' 0 := by
  obtain ⟨hh, hdoff, htot⟩ := sameHeader_of_below h
  refine ⟨hh, ?_, hdoff, ?_⟩
  · rw [h _ (by unfold optOff; omega)]
  · rw [htot, Nat.mul_zero, Nat.add_zero, Nat.mod_eq_of_lt (totLen_lt p)]

theorem trans (h : Grown p p' g) (h' : Grown p' p'' g') : Grown p p'' (g + g') := by
  refine ⟨h.header.trans h'.header, ?_, ?_, ?_⟩
  · have hr := h'.reserved
    rw [h.header.tcpOff] at hr
    exact hr.trans h.reserved
  · rw [h'.doff, h.doff, Nat.add_assoc]
  · rw [h'.totLen, h.totLen, Nat.mul_add, ← Nat.add_assoc, Nat.mod_add_mod]

end Grown

section Room

variable {p : Mem}

theorem zeroGap_below (p : Mem) (hd : 5 ≤ p.doff) (addoff : Nat) :
    SameBelow p.optOff p (zeroGap p addoff) := by
  rw [zeroGap_eq hd]
  exact SameBelow.fill p _ 0 (by unfold optOff dataOff; omega)

theorem openGap_grown (p : Mem) (hd : 5 ≤ p.doff) (addoff : Nat) :
    Post (openGap p addoff) (SameBelow p.optOff p) := by
  unfold openGap
  split
  · exact Post.error
  · refine Post.ok ?_
    have hmove : SameBelow p.optOff p (p.move (p.dataOff + 4 * addoff) p.dataOff
        (p.totLen - 4 * p.ihl - 4 * p.doff)) :=
      SameBelow.move p _ _ (by unfold optOff dataOff; omega)
    obtain ⟨hh, hdoff, -⟩ := sameHeader_of_below hmove
    refine hmove.trans ?_
    rw [← hh.optOff]
    exact zeroGap_below _ (by rw [hdoff]; exact hd) addoff

theorem grown_resize (p : Mem) {a : Nat} (hd : p.doff + a ≤ 15) :
    Grown p ((p.setDoff (p.doff + a)).setTotLen (p.totLen + 4 * a)) a := by
  have hdoff : ∀ t, ((p.setDoff (p.doff + a)).setTotLen t) (p.tcpOff + 12) =
      (p.setDoff (p.doff + a)) (p.tcpOff + 12) := fun t => setBe16_out _ t (by omega)
  have hh := (sameHeader_setDoff p (p.doff + a)).trans (sameHeader_setTotLen _ (p.totLen + 4 * a))
  have hbyte : (p.setDoff (p.doff + a) (p.tcpOff + 12)).toNat =
      (p (p.tcpOff + 12)).toNat % 16 + (p.doff + a) % 16 * 16 := by
    unfold setDoff
    rw [set_self, UInt8.toNat_ofNat']
    omega
  refine ⟨hh, ?_, ?_, ?_⟩
  · rw [hdoff, hbyte]
    omega
  · rw [Mem.doff, hh.tcpOff, hdoff, hbyte]
    omega
  · exact totLen_setTotLen _ _

theorem addTcpoptAddoff_grown (p : Mem) (hd : 5 ≤ p.doff) (a : Nat) :
    Post (addTcpoptAddoff p a) fun r => ∃ g, Grown p r.1 g ∧ g ≤ a := by
  have hsame : Grown p p 0 := Grown.of_below (SameBelow.refl _ p)
  unfold addTcpoptAddoff
  split
  · exact Post.ok ⟨0, hsame, Nat.zero_le a⟩
  · split
    · next hfit =>
      refine Post.bind (openGap_grown p hd a) fun q hq => Post.ok ⟨a, ?_, Nat.le_refl a⟩
      obtain ⟨-, hdoff, -⟩ := sameHeader_of_below hq
      have hg := (Grown.of_below hq).trans (grown_resize q (a := a) (by rw [hdoff]; exact hfit))
      rw [Nat.zero_add] at hg
      rw [totLen_setDoff]
      exact hg
    · exact Post.ok ⟨0, hsame, Nat.zero_le a⟩

end Room

/-! ## Tagging -/

/-- What is needed to follow tagging from packet to packet: `I` is known of the packet whenever
words are added, and `R c` compares the packets before and after steps that add at most `c`
words. -/
structure Keeping (I : Mem → Prop) (R : Nat → Mem → Mem → Prop) : Prop where
  mono : ∀ {c c' p p'}, c ≤ c' → R c p p' → R c' p p'
  trans : ∀ {c c' p p' p''}, I p → R c p p' → R c' p' p'' → R (c + c') p p''
  below : ∀ {p p'}, SameBelow p.optOff p p' → R 0 p p'
  optOff : ∀ {c p p'}, I p → R c p p' → p'.optOff = p.optOff
  keep : ∀ {c p p'}, I p → R c p p' → I p'
  addoff : ∀ {p}, I p → ∀ a, Post (addTcpoptAddoff p a) fun r => R a p r.1

section Tag

variable {p : Mem}

theorem nodPass_ge {gap : Int} {nod' o : Nat} {id : List UInt8} :
    ∀ s : Option Nat, (∀ h, s = some h → o ≤ h) →
      Post (nodPass gap p nod' id s) (Pass.Sat (fun s => ∀ h, s = some h → o ≤ h)
        fun r => ∀ h, r = some h → o ≤ h) := by
  intro s hs
  cases s with
  | none => exact Post.ok fun h hh => nomatch hh
  | some nodh =>
    have hnodh := hs nodh rfl
    simp only [nodPass]
    split
    · exact Post.ok fun h hh => Option.some.inj hh ▸ hnodh
    · refine Post.ok fun h hh => ?_
      unfold getNodNextHeader at hh
      split at hh
      · rw [← Option.some.inj hh]
        omega
      · cases hh

theorem getNodHeader_ge (gap : Int) (p : Mem) (id : List UInt8) :
    Post (getNodHeader gap p id) fun o => ∀ h, o = some h → p.optOff ≤ h := by
  refine Post.bind (getTcpopt_ge p nod) fun o ho => ?_
  cases o with
  | none => exact Post.ok fun h hh => nomatch hh
  | some nod' =>
    have hnod := ho nod' rfl
    dsimp only
    split
    · refine Post.loop nodPass_ge fun h hh => ?_
      rw [← Option.some.inj hh]
      omega
    · exact Post.ok fun h hh => nomatch hh

/-- The header fields of a NOD header, which are bytes of the option area or behind it. -/
theorem fillNodHeader_below {nod' : Nat} (hnod : p.optOff ≤ nod') (headerlen : Nat)
    (id : List UInt8) :
    SameBelow p.optOff p (fillNodHeader p nod' headerlen id) := by
  unfold fillNodHeader
  dsimp only
  refine SameBelow.trans ?_ (SameBelow.write _ id (by omega))
  refine SameBelow.trans ?_ (SameBelow.set _ _ (by omega))
  refine SameBelow.trans ?_ (SameBelow.set _ _ (by omega))
  exact (SameBelow.set p _ (by omega)).trans (SameBelow.set _ _ (by omega))

namespace Keeping

variable {I : Mem → Prop} {R : Nat → Mem → Mem → Prop} (h : Keeping I R) (hp : I p)
include h hp

theorem then_below {c : Nat} {p' p'' : Mem} (hq : R c p p') (hr : SameBelow p'.optOff p' p'') :
    R c p p'' :=
  h.trans hp hq (h.below hr)

theorem addTcpoptBytes (bytes : Nat) :
    Post (addTcpoptBytes p bytes) fun r => R (dwords bytes) p r.1 := by
  refine Post.bind (getTcpoptAddoffNeeded_below p bytes) fun r hr => ?_
  have hbelow := h.below hr.1
  refine (h.addoff (h.keep hp hbelow) r.2).mono fun q hq => ?_
  exact h.mono (by omega) (h.trans hp hbelow hq)

theorem setTcpopt (k len : UInt8) :
    Post (setTcpopt p k len) fun r => R 1 p r.1 ∧ ∀ a, r.2 = some a → p.optOff ≤ a := by
  refine Post.bind (getTcpopt_ge p k) fun o ho => ?_
  cases o with
  | some a =>
    exact Post.ok ⟨h.mono (Nat.zero_le 1) (h.below (SameBelow.refl _ p)), fun b hb => ho b hb⟩
  | none =>
    refine Post.bind (getTcpoptAddoffNeeded_below p 2) fun r ⟨hr, hle⟩ => ?_
    have hr := h.below hr
    refine Post.bind (h.addoff (h.keep hp hr) r.2) fun q hq => ?_
    have hle : 0 + r.2 ≤ 1 := by
      rw [Nat.zero_add]
      exact hle
    have hq := h.mono hle (h.trans hp hr hq)
    refine Post.bind (getTcpopt_ge q.1 tcpoptEol) fun o ho => ?_
    cases o with
    | none => exact Post.ok ⟨hq, fun b hb => nomatch hb⟩
    | some opt =>
      have hopt := ho opt rfl
      refine Post.ok ⟨h.then_below hp hq ?_, fun b hb => ?_⟩
      · exact (SameBelow.set q.1 k hopt).trans (SameBelow.set _ len (by omega))
      · cases hb
        rwa [h.optOff hp hq] at hopt

theorem setNodHeader (gap : Int) {id : List UInt8} (hid : 2 + id.length < 256) :
    Post (setNodHeader gap p id) fun r =>
      R (1 + dwords (2 + id.length)) p r.1 ∧ ∀ a, r.2 = some a → p.optOff ≤ a := by
  refine Post.bind (h.setTcpopt hp nod 2) fun r hr => ?_
  obtain ⟨q, o⟩ := r
  obtain ⟨hq, ho⟩ := hr
  dsimp only at hq ho ⊢
  refine Post.bind (getNodHeader_ge gap q id) fun o' ho' => ?_
  cases o' with
  | some nodh =>
    have hnodh := ho' nodh rfl
    rw [h.optOff hp hq] at hnodh
    refine Post.bind (P := fun _ => True) (fun _ _ => trivial) fun _ _ =>
      Post.ok ⟨h.mono (by omega) hq, fun a ha => ?_⟩
    exact Option.some.inj ha ▸ hnodh
  | none =>
    dsimp only
    rw [Nat.mod_eq_of_lt hid]
    refine Post.bind (h.addTcpoptBytes (h.keep hp hq) _) fun r hr => ?_
    have hr := h.trans hp hq hr
    cases o with
    | none => exact Post.error
    | some nod' =>
      have hnod := ho nod' rfl
      dsimp only
      refine Post.bind (shiftTcpoptSpace_sameBelow (by rw [h.optOff hp hr]; omega)
        (show 0 < 2 + id.length by omega)) fun s hs => ?_
      have hs := h.then_below hp hr hs
      refine Post.bind (P := fun _ => True) (fun _ _ => trivial) fun _ _ =>
        Post.ok ⟨h.then_below hp hs ?_, ?_⟩
      · exact fillNodHeader_below (by rw [h.optOff hp hs]; exact hnod) _ id
      · intro a ha
        rw [← Option.some.inj ha]
        omega

theorem setNodHeaderData (gap : Int) {id : List UInt8} (hid : 2 + id.length < 256)
    {data : List UInt8} (hdata : 0 < data.length) : Post (setNodHeaderData gap p id data)
      (R (1 + dwords (2 + id.length) + dwords data.length) p) := by
  refine Post.bind (h.setNodHeader hp gap hid) fun r hr => ?_
  obtain ⟨q, nodh⟩ := r
  obtain ⟨hq, hnodh⟩ := hr
  dsimp only at hq hnodh ⊢
  have hsame := h.mono (Nat.le_add_right _ (dwords data.length)) hq
  refine Post.bind (getTcpopt_ge q nod) fun o ho => ?_
  cases nodh with
  | none => exact Post.ok hsame
  | some nodh =>
    cases o with
    | none => exact Post.ok hsame
    | some nod' =>
      have hn := hnodh nodh rfl
      have hn' := ho nod' rfl
      rw [h.optOff hp hq] at hn'
      dsimp only
      split
      · refine Post.bind (h.addTcpoptBytes (h.keep hp hq) _) fun r hr => ?_
        have hr := h.trans hp hq hr
        split
        · refine Post.bind (getTcpoptFreespace_below r.1) fun s hs => ?_
          have hs := h.then_below hp hr hs
          split
          · refine Post.bind (shiftTcpoptSpace_sameBelow (by rw [h.optOff hp hs]; omega) hdata)
              fun t ht => ?_
            have ht := h.then_below hp hs ht
            refine Post.ok (h.then_below hp ht ?_)
            unfold fillNodHeaderData
            dsimp only
            rw [h.optOff hp ht]
            refine SameBelow.trans ?_ (SameBelow.write _ data (by omega))
            refine SameBelow.trans ?_ (SameBelow.set _ _ (by omega))
            exact (SameBelow.set t.1 _ (by omega)).trans (SameBelow.set _ _ (by omega))
          · exact Post.ok hs
        · exact Post.ok hr
      · exact Post.ok hsame

end Keeping

theorem Grown.five_le {p' : Mem} {g : Nat} (h : Grown p p' g) (hd : 5 ≤ p.doff) : 5 ≤ p'.doff := by
  rw [h.doff]
  omega

theorem grown_keeping : Keeping (5 ≤ ·.doff) fun c p p' => ∃ g, Grown p p' g ∧ g ≤ c where
  mono hc := fun ⟨g, hg, hle⟩ => ⟨g, hg, Nat.le_trans hle hc⟩
  trans _ := fun ⟨_, hg, hle⟩ ⟨_, hg', hle'⟩ => ⟨_, hg.trans hg', Nat.add_le_add hle hle'⟩
  below h := ⟨0, Grown.of_below h, Nat.le_refl 0⟩
  optOff _ := fun ⟨_, hg, _⟩ => hg.header.optOff
  keep hd := fun ⟨_, hg, _⟩ => hg.five_le hd
  addoff hd a := addTcpoptAddoff_grown _ hd a

/-- **Tagging** changes nothing in front of the options but the two lengths. -/
theorem setNodHeaderData_grown (gap : Int) (p : Mem) (hd : 5 ≤ p.doff) {id : List UInt8}
    (hid : 2 + id.length < 256) {data : List UInt8} (hdata : 0 < data.length) :
    Post (setNodHeaderData gap p id data) fun p' => ∃ g, Grown p p' g :=
  (grown_keeping.setNodHeaderData hd gap hid hdata).mono fun _ ⟨g, hg, _⟩ => ⟨g, hg⟩

/-- The IP header is the same up to the total length. -/
def SameIp (p p' : Mem) : Prop := ∀ i < p.tcpOff, i ≠ 2 → i ≠ 3 → p' i = p i

namespace SameIp

variable {p' p'' : Mem}

theorem ihl (h : SameIp p p') (hi : 5 ≤ p.ihl) : p'.ihl = p.ihl := by
  unfold Mem.ihl
  rw [h 0 (by unfold tcpOff; omega) (by omega) (by omega)]

theorem tcpOff (h : SameIp p p') (hi : 5 ≤ p.ihl) : p'.tcpOff = p.tcpOff := by
  unfold Mem.tcpOff
  rw [h.ihl hi]

theorem trans (h : SameIp p p') (hi : 5 ≤ p.ihl) (h' : SameIp p' p'') : SameIp p p'' := by
  intro i hlt h2 h3
  rw [h' i (by rwa [h.tcpOff hi]) h2 h3, h i hlt h2 h3]

theorem of_below {k : Nat} (hk : p.tcpOff ≤ k) (h : SameBelow k p p') : SameIp p p' :=
  fun i hi _ _ => h i (by omega)

theorem saddr (h : SameIp p p') (hi : 5 ≤ p.ihl) : p'.saddr = p.saddr :=
  le32_congr fun _ _ _ => h _ (by unfold Mem.tcpOff; omega) (by omega) (by omega)

/-- The data offset is read anew for every byte that is zeroed, but it never points into the IP
header. -/
theorem zeroGap_below_tcp (p : Mem) (hi : 5 ≤ p.ihl) (addoff : Nat) :
    SameBelow p.tcpOff p (zeroGap p addoff) := by
  unfold zeroGap
  induction 4 * addoff with
  | zero => exact SameBelow.refl _ p
  | succ n ih =>
    rw [List.range_succ, List.foldl_append, List.foldl_cons, List.foldl_nil]
    refine ih.trans (SameBelow.set _ 0 ?_)
    rw [← (of_below (Nat.le_refl _) ih).tcpOff hi]
    unfold dataOff
    omega

theorem openGap_below_tcp (p : Mem) (hi : 5 ≤ p.ihl) (addoff : Nat) :
    Post (openGap p addoff) (SameBelow p.tcpOff p) := by
  unfold openGap
  split
  · exact Post.error
  · have hmove :
        SameBelow p.tcpOff p
          (p.move (p.dataOff + 4 * addoff) p.dataOff (p.totLen - 4 * p.ihl - 4 * p.doff)) :=
      SameBelow.move p _ _ (by unfold dataOff; omega)
    have hip := of_below (Nat.le_refl _) hmove
    refine Post.ok (hmove.trans ?_)
    rw [← hip.tcpOff hi]
    exact zeroGap_below_tcp _ (by rw [hip.ihl hi]; exact hi) addoff

theorem resize (p : Mem) (v t : Nat) : SameIp p ((p.setDoff v).setTotLen t) := by
  intro i hlt h2 h3
  rw [setTotLen, setBe16_out _ _ (by omega), setDoff, set_ne _ _ (by omega)]

end SameIp

/-- The IP header is the same, but for a total length that is up to `c` words more if its field has
room for them. -/
structure Longer (c : Nat) (p p' : Mem) : Prop where
  ip : SameIp p p'
  totLen : p.totLen + 4 * c < 65536 → p.totLen ≤ p'.totLen ∧ p'.totLen ≤ p.totLen + 4 * c

namespace Longer

variable {p' p'' : Mem} {c c' : Nat}

theorem mono (hc : c ≤ c') (h : Longer c p p') : Longer c' p p' :=
  ⟨h.ip, fun hlt => by have := h.totLen (by omega); omega⟩

theorem trans (hi : 5 ≤ p.ihl) (h : Longer c p p') (h' : Longer c' p' p'') :
    Longer (c + c') p p'' := by
  refine ⟨h.ip.trans hi h'.ip, fun hlt => ?_⟩
  have h₁ := h.totLen (by omega)
  have h₂ := h'.totLen (by omega)
  omega

theorem of_below {k : Nat} (hk : p.tcpOff ≤ k) (h4 : 4 ≤ k) (h : SameBelow k p p') :
    Longer 0 p p' := by
  refine ⟨SameIp.of_below hk h, fun _ => ?_⟩
  have htot : p'.totLen = p.totLen := be16_congr fun i _ _ => h i (by omega)
  omega

theorem resize (p : Mem) (v a : Nat) : Longer a p ((p.setDoff v).setTotLen (p.totLen + 4 * a)) := by
  refine ⟨SameIp.resize p v _, fun hlt => ?_⟩
  rw [totLen_setTotLen, Nat.mod_eq_of_lt hlt]
  omega

theorem addTcpoptAddoff (hi : 5 ≤ p.ihl) (a : Nat) :
    Post (addTcpoptAddoff p a) fun r => Longer a p r.1 := by
  have h4 : 4 ≤ p.tcpOff := by
    unfold Mem.tcpOff
    omega
  have hsame : Longer a p p :=
    (of_below (Nat.le_refl _) h4 (SameBelow.refl _ p)).mono (Nat.zero_le a)
  unfold Opennop.addTcpoptAddoff
  split
  · exact Post.ok hsame
  · split
    · refine Post.bind (SameIp.openGap_below_tcp p hi a) fun q hq => Post.ok ?_
      have hraised := (of_below (Nat.le_refl _) h4 hq).trans hi (resize q (q.doff + a) a)
      rw [Nat.zero_add] at hraised
      rwa [totLen_setDoff]
    · exact Post.ok hsame

end Longer

theorem longer_keeping : Keeping (5 ≤ ·.ihl) Longer where
  mono := Longer.mono
  trans := Longer.trans
  below h := Longer.of_below (by unfold optOff; omega) (by unfold optOff; omega) h
  optOff hi h := by
    unfold optOff
    rw [h.ip.tcpOff hi]
  keep hi h := by
    rw [h.ip.ihl hi]
    exact hi
  addoff := Longer.addTcpoptAddoff

/-- Tagging leaves the IP header alone but for the total length, whatever the TCP header is. -/
theorem setNodHeaderData_longer (gap : Int) (p : Mem) (hi : 5 ≤ p.ihl) {id : List UInt8}
    (hid : 2 + id.length < 256) {data : List UInt8} (hdata : 0 < data.length) :
    Post (setNodHeaderData gap p id data)
      (Longer (1 + dwords (2 + id.length) + dwords data.length) p) :=
  longer_keeping.setNodHeaderData hi gap hid hdata

theorem setNodHeaderData_sameIp (gap : Int) (p : Mem) (hi : 5 ≤ p.ihl) {id : List UInt8}
    (hid : 2 + id.length < 256) {data : List UInt8} (hdata : 0 < data.length) :
    Post (setNodHeaderData gap p id data) (SameIp p) :=
  (setNodHeaderData_longer gap p hi hid hdata).mono fun _ h => h.ip

end Tag

/-! ## Setting an option -/

section SetOption

variable {p : Mem}

theorem squeeze_below (p : Mem) : Post (squeeze p) fun r => SameBelow p.optOff p r.1 := by
  have hpass : ∀ s : Mem × Nat, SameBelow p.optOff p s.1 →
      Post (squeezePass p.optOff p.areaLen s)
        (Pass.Sat (fun s' => SameBelow p.optOff p s'.1) fun r => SameBelow p.optOff p r.1) := by
    rintro ⟨q, i⟩ hq
    by_cases hlt : i < p.areaLen
    · simp only [squeezePass, if_pos hlt]
      refine Post.bind (dropNops_below q i (by omega)) fun q' hq' => ?_
      split
      · exact Post.ok (hq.trans hq')
      · exact Post.ok (hq.trans hq')
    · simp only [squeezePass, if_neg hlt]
      exact Post.ok hq
  unfold squeeze
  split
  · exact Post.loop hpass (SameBelow.refl _ p)
  · exact Post.ok (SameBelow.refl _ p)

theorem putBytes_below {o k : Nat} (h : k ≤ o) (v count j : Nat) (p : Mem) :
    SameBelow k p (putBytes o v count j p) := by
  induction count generalizing j p with
  | zero => exact SameBelow.refl k p
  | succ count ih => exact (SameBelow.set _ _ (by omega)).trans (ih _ _)

theorem putFirst_below (p : Mem) (n : Nat) (k : UInt8) (len v : Nat) :
    SameBelow p.optOff p (putFirst p n k len v) := by
  unfold putFirst
  refine SameBelow.trans ?_ (putBytes_below (Nat.le_refl _) _ _ _ _)
  refine SameBelow.trans ?_ (SameBelow.set _ _ (by omega))
  exact (SameBelow.move p _ _ (by omega)).trans (SameBelow.set _ _ (by omega))

theorem setDoff_if (p : Mem) (a : Nat) :
    (if a ≠ 0 then p.setDoff (p.doff + a) else p) = p.setDoff (p.doff + a) := by
  by_cases h0 : a = 0
  · subst h0
    exact (setDoff_self p).symm
  · rw [if_pos h0]

theorem insertTcpOption_grown (p : Mem) (hd : 5 ≤ p.doff) (k : UInt8) (len v : Nat) :
    Post (insertTcpOption p k len v) fun r => ∃ g, Grown p r.1 g := by
  refine Post.bind (squeeze_below p) fun r hr => ?_
  obtain ⟨q, optspace⟩ := r
  dsimp only at hr ⊢
  obtain ⟨hh, hdoff, -⟩ := sameHeader_of_below hr
  generalize (if optspace < len then dwords ((len - optspace) % 256) else 0) = a
  split
  · next hfit =>
    have hgap : Post (openGapIf q a) (SameBelow q.optOff q) := by
      unfold openGapIf
      split
      · exact openGap_grown q (by rw [hdoff]; exact hd) a
      · exact Post.ok (SameBelow.refl _ q)
    refine Post.bind hgap fun q₁ hq₁ => ?_
    split
    · exact Post.error
    · refine Post.ok ?_
      obtain ⟨hh₁, hdoff₁, -⟩ := sameHeader_of_below hq₁
      have hput := putFirst_below q₁ (q₁.areaLen - optspace) k len v
      obtain ⟨hh₂, hdoff₂, -⟩ := sameHeader_of_below hput
      generalize putFirst q₁ (q₁.areaLen - optspace) k len v = q₂ at hput hh₂ hdoff₂ ⊢
      have hbelow : SameBelow p.optOff p q₂ := by
        rw [hh₁.optOff, hh.optOff] at hput
        rw [hh.optOff] at hq₁
        exact hr.trans (hq₁.trans hput)
      dsimp only
      rw [setDoff_if, totLen_setDoff]
      exact ⟨0 + a, (Grown.of_below hbelow).trans
        (grown_resize q₂ (by rw [hdoff₂, hdoff₁]; exact hfit))⟩
  · exact Post.ok ⟨0, Grown.of_below hr⟩

/-- **Setting an option** changes nothing in front of the options but the two lengths. -/
theorem setTcpOption_grown (p : Mem) (hd : 5 ≤ p.doff) (k : UInt8) (len v : Nat) :
    Post (setTcpOption p k len v) fun r => ∃ g, Grown p r.1 g := by
  unfold setTcpOption
  dsimp only
  split
  · refine Post.bind (P := fun _ => True) (fun _ _ => trivial) fun o _ => ?_
    cases o with
    | none => exact insertTcpOption_grown p hd k len v
    | some i => exact Post.ok ⟨0, Grown.of_below (putBytes_below (by omega) _ _ _ p)⟩
  · exact insertTcpOption_grown p hd k len v

theorem openGapIf_longer (hi : 5 ≤ p.ihl) (a : Nat) : Post (openGapIf p a) (Longer 0 p) := by
  have h4 : 4 ≤ p.tcpOff := by
    unfold tcpOff
    omega
  unfold openGapIf
  split
  · exact (SameIp.openGap_below_tcp p hi a).mono fun q hq => Longer.of_below (Nat.le_refl _) h4 hq
  · exact Post.ok (Longer.of_below (Nat.le_refl _) h4 (SameBelow.refl _ p))

theorem insertTcpOption_longer (hi : 5 ≤ p.ihl) (k : UInt8) {len : Nat} (hlen : len < 256)
    (v : Nat) :
    Post (insertTcpOption p k len v) fun r => ∃ c, Longer c p r.1 ∧ c ≤ dwords len ∧
      p.doff + c ≤ 15 := by
  refine Post.bind (squeeze_below p) fun r hr => ?_
  obtain ⟨q, optspace⟩ := r
  dsimp only at hr ⊢
  obtain ⟨-, hdoff, -⟩ := sameHeader_of_below hr
  have hq := longer_keeping.below hr
  have hle : (if optspace < len then dwords ((len - optspace) % 256) else 0) ≤ dwords len := by
    rw [addoff_eq optspace hlen]
    exact dwords_mono (Nat.sub_le _ _)
  generalize (if optspace < len then dwords ((len - optspace) % 256) else 0) = a at hle ⊢
  split
  · next hfit =>
    refine Post.bind (openGapIf_longer (longer_keeping.keep hi hq) a) fun q₁ hq₁ => ?_
    have hq₁ := hq.trans hi hq₁
    split
    · exact Post.error
    · have hq₂ :=
        longer_keeping.then_below hi hq₁ (putFirst_below q₁ (q₁.areaLen - optspace) k len v)
      generalize putFirst q₁ (q₁.areaLen - optspace) k len v = q₂ at hq₂ ⊢
      have hraised := hq₂.trans hi (Longer.resize q₂ (q₂.doff + a) a)
      rw [Nat.zero_add] at hraised
      rw [setDoff_if, totLen_setDoff]
      exact Post.ok ⟨a, hraised, hle, by rwa [← hdoff]⟩
  · exact Post.ok ⟨0, hq, Nat.zero_le _, Nat.le_of_lt_succ (doff_lt p)⟩

/-- Setting an option adds at most the words that it needs, within the largest header. -/
theorem setTcpOption_longer (hi : 5 ≤ p.ihl) (k : UInt8) {len : Nat} (hlen : len < 256) (v : Nat) :
    Post (setTcpOption p k len v) fun r => ∃ c, Longer c p r.1 ∧ c ≤ dwords len ∧
      p.doff + c ≤ 15 := by
  unfold setTcpOption
  dsimp only
  split
  · refine Post.bind (P := fun _ => True) (fun _ _ => trivial) fun o _ => ?_
    cases o with
    | none => exact insertTcpOption_longer hi k hlen v
    | some i =>
      exact Post.ok ⟨0, longer_keeping.below (putBytes_below (by omega) _ _ _ p), Nat.zero_le _,
        Nat.le_of_lt_succ (doff_lt p)⟩
  · exact insertTcpOption_longer hi k hlen v

end SetOption

end Opennop
