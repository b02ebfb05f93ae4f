import Opennop.Node.Worker
import Opennop.Packet.Headers
import Opennop.Packet.RoundTrip

/-!
# What a packet announces

`remoteID` reads the accelerator that a packet announces from the NOD option. On a packet whose
options are known it depends on the first NOD option only: a packet without one announces nothing,
one with the tag of `set_nod_header_data` announces its ID, and an ID that is inside the option
stays readable when the option is moved (`Carries.announces`).
-/

namespace Opennop

open Mem

variable {gap : Int} {p p' : Mem} {D : Nat} {os : List Opt} {d : List UInt8}

/-! ## Packets that show the same -/

theorem Shows.congr (h : Shows p D os d) (hihl : p'.ihl = p.ihl) (hdoff : p'.doff = p.doff)
    (htot : p'.totLen = p.totLen)
    (hrest : ∀ i, p.optOff ≤ i → i < p.tcpOff + 4 * D + d.length → p' i = p i) :
    Shows p' D os d := by
  have h5 := h.five_le
  have htcp : p'.tcpOff = p.tcpOff := by
    unfold tcpOff
    rw [hihl]
  have hopt : p'.optOff = p.optOff := by
    unfold optOff
    rw [htcp]
  refine ⟨by rw [hihl]; exact h.ihl, by rw [hdoff, h.doff], h5, ?_, ?_, ?_⟩
  · rw [hopt]
    exact h.area.congr fun i h₁ h₂ => hrest i h₁ (by unfold optOff at h₂; omega)
  · rw [htot, hihl, h.totLen]
  · rw [htcp]
    exact h.data.congr fun i h₁ h₂ => hrest i (by unfold optOff; omega) h₂

section Checksum

variable (hi : 5 ≤ p.ihl)
include hi

theorem sameEnds_checksum : SameEnds p (checksum p) := by
  refine ⟨ihl_checksum hi, checksum_ip hi (by omega) (by omega),
    le32_congr fun i h₁ h₂ => checksum_ip hi (by omega) (by omega),
    le32_congr fun i h₁ h₂ => checksum_ip hi (by omega) (by omega), ?_, ?_, ?_⟩
  · unfold source
    rw [tcpOff_checksum hi]
    refine le16_congr fun i h₁ h₂ => ?_
    obtain ⟨j, rfl⟩ := Nat.exists_eq_add_of_le h₁
    exact checksum_tcp hi (by omega)
  · unfold dest
    rw [tcpOff_checksum hi]
    refine le16_congr fun i h₁ h₂ => ?_
    obtain ⟨j, rfl⟩ := Nat.exists_eq_add_of_le h₁
    rw [Nat.add_assoc]
    exact checksum_tcp hi (by omega)
  · unfold flags
    rw [tcpOff_checksum hi, checksum_tcp hi (by omega)]

end Checksum

theorem Shows.checksum (h : Shows p D os d) : Shows (checksum p) D os d := by
  have hi := h.ihl
  refine h.congr (ihl_checksum hi) (doff_checksum hi) (totLen_checksum hi) fun i h₁ _ => ?_
  obtain ⟨j, rfl⟩ := Nat.exists_eq_add_of_le h₁
  unfold optOff
  rw [Nat.add_assoc]
  exact checksum_tcp hi (by omega)

/-! ## Packets cut to a length -/

theorem cut_below (p : Mem) {n i : Nat} (h : i < n) : p.cut n i = p i := if_pos h

theorem sameEnds_cut (p : Mem) {n : Nat} (hi : 5 ≤ p.ihl) (hn : p.tcpOff + 20 ≤ n) :
    SameEnds p (p.cut n) ∧ (p.cut n).doff = p.doff ∧ (p.cut n).totLen = p.totLen ∧
      (p.cut n).seq = p.seq := by
  have htcp : 20 ≤ p.tcpOff := by
    unfold tcpOff
    omega
  have hsame : SameHeader p (p.cut n) ∧ (p.cut n).doff = p.doff ∧ (p.cut n).totLen = p.totLen :=
    sameHeader_of_below fun i hi => cut_below p (by unfold optOff at hi; omega)
  exact ⟨hsame.1.sameEnds hi, hsame.2.1, hsame.2.2, hsame.1.seq hi⟩

theorem Shows.cut (h : Shows p D os d) {n : Nat} (hn : p.tcpOff + 4 * D + d.length ≤ n) :
    Shows (p.cut n) D os d := by
  have h5 := h.five_le
  obtain ⟨hends, hdoff, htot, -⟩ := sameEnds_cut p h.ihl (show p.tcpOff + 20 ≤ n by omega)
  exact h.congr hends.ihl hdoff htot fun i _ h₂ => cut_below p (by omega)

/-! ## Headers that are filled already -/

/-- **`set_nod_header_data` leaves a header that has data as it is**, whatever the data. -/
theorem setNodHeaderData_filled {id : List UInt8} {l a : Nat}
    (h : getNodHeaderData gap p id = .ok ⟨l, some a⟩) (data : List UInt8) :
    setNodHeaderData gap p id data = .ok p := by
  obtain ⟨n, nodh, hn, hget, -, hid, hlen, hl, -⟩ := getNodHeaderData_some h
  have hset : setTcpopt p nod 2 = .ok (p, some n) := by
    unfold setTcpopt
    rw [hn, ok_bind]
    rfl
  have hheader : setNodHeader gap p id = .ok (p, some nodh) := by
    unfold setNodHeader
    rw [hset, ok_bind]
    dsimp only
    rw [hget, ok_bind]
    rfl
  unfold setNodHeaderData
  rw [hheader, ok_bind]
  dsimp only
  rw [hn, ok_bind]
  dsimp only
  rw [if_neg (by omega)]
  rfl

/-! ## Announcements -/

section Announce

variable (env : Env)

theorem remoteID_absent (h : Shows p D os d) (hf : firstOfKind nod os = none) :
    remoteID env p = .ok none := by
  unfold remoteID getNodHeaderData getNodHeader
  rw [getTcpopt_absent h (by decide) hf]
  rfl

theorem remoteID_of_data {l a : Nat} (h : getNodHeaderData env.gap p onop = .ok ⟨l, some a⟩) :
    remoteID env p = .ok (some (.load p a)) := by
  unfold remoteID
  rw [h]
  rfl

theorem remoteID_tag {id : OpennopId} {post : List Opt}
    (h : Shows p D (os ++ tag id.bytes :: post) d) (hf : firstOfKind nod os = none) :
    remoteID env p = .ok (some id) := by
  obtain ⟨hget, hread⟩ := getNodHeaderData_tag env.gap id.length_bytes h hf
  rw [remoteID_of_data env hget]
  exact congrArg _ (congrArg _ (OpennopId.bytes_inj (by rw [OpennopId.load_bytes, hread])))

/-- The packet carries an ONOP header with the four bytes of `id`, inside its NOD option. -/
structure Carries (p : Mem) (os : List Opt) (id : OpennopId) : Prop where
  wellFormed : WellFormed p os
  inside : ∃ a n, getNodHeaderData env.gap p onop = .ok ⟨4, some a⟩ ∧ OpennopId.load p a = id ∧
    getTcpopt p nod = .ok (some n) ∧ a + 4 ≤ n + (p (n + 1)).toNat

variable {env} {id : OpennopId}

theorem carries_tag {post : List Opt} (h : WellFormed p (os ++ tag id.bytes :: post))
    (hf : firstOfKind nod os = none) : Carries env p (os ++ tag id.bytes :: post) id := by
  have hs := h.shows _ rfl
  obtain ⟨hget, hread⟩ := getNodHeaderData_tag env.gap id.length_bytes hs hf
  have hmid := hs.area.mid
  simp only [tag, Opt.encode, holds_cons] at hmid
  refine ⟨h, _, _, hget, OpennopId.bytes_inj (by rw [OpennopId.load_bytes, hread]),
    getTcpopt_at hs hf rfl, ?_⟩
  rw [hmid.2.1]
  rfl

theorem Carries.remoteID_eq (h : Carries env p os id) : remoteID env p = .ok (some id) := by
  obtain ⟨a, n, hget, hid, -⟩ := h.inside
  rw [remoteID_of_data env hget, hid]

theorem Carries.setTag_eq (h : Carries env p os id) : setTag env p = .ok p := by
  obtain ⟨a, n, hget, -⟩ := h.inside
  exact setNodHeaderData_filled hget _

theorem nod_split (h : Shows p D os d) {n : Nat} (hn : getTcpopt p nod = .ok (some n)) :
    ∃ pre x post, os = pre ++ .opt nod x :: post ∧ firstOfKind nod os = some (.opt nod x) ∧
      n = p.optOff + (encode pre).length := by
  rcases getTcpopt_kind h (show 2 ≤ nod by decide) with ⟨-, hnone⟩ | ⟨pre, o, post, hos, hf, hsome⟩
  · rw [hn] at hnone
    cases hnone
  · have hk : o.kind = nod := by simpa using List.find?_some hf
    cases o with
    | nop => exact absurd hk (by decide)
    | opt k x =>
      obtain rfl : k = nod := hk
      rw [hn] at hsome
      cases hsome
      exact ⟨pre, x, post, hos, hf, rfl⟩

theorem nod_bytes {pre post : List Opt} {x : List UInt8}
    (h : Shows p D (pre ++ .opt nod x :: post) d) :
    p.Holds (p.optOff + (encode pre).length) (Opt.opt nod x).encode ∧ x.length + 2 < 256 ∧
      (p (p.optOff + (encode pre).length + 1)).toNat = x.length + 2 := by
  have hok : x.length + 2 < 256 := (h.area.ok (.opt nod x) (by simp)).2
  have hmid := h.area.mid
  refine ⟨hmid, hok, ?_⟩
  rw [Opt.encode, holds_cons, holds_cons] at hmid
  rw [hmid.2.1, UInt8.toNat_ofNat', Nat.mod_eq_of_lt hok]

/-- **An ID inside the NOD option goes where the option goes.** -/
theorem Carries.announces (h : Carries env p os id) {D' : Nat} {os' : List Opt} {d' : List UInt8}
    (h' : Shows p' D' os' d') (hf' : firstOfKind nod os' = firstOfKind nod os) :
    remoteID env p' = .ok (some id) := by
  obtain ⟨a, n, hget, hid, hn, hin⟩ := h.inside
  obtain ⟨n₁, nodh, hn₁, -, hwalk, hidlen, hlen, -, rfl⟩ := getNodHeaderData_some hget
  rw [hn] at hn₁
  cases hn₁
  have hs := h.wellFormed.shows _ rfl
  obtain ⟨pre, x, post, rfl, hf, rfl⟩ := nod_split hs hn
  obtain ⟨hbytes, hx, hlen₁⟩ := nod_bytes hs
  -- the option in the other packet
  rw [hf] at hf'
  obtain ⟨n', hn'⟩ : ∃ n', getTcpopt p' nod = .ok (some n') := by
    rcases getTcpopt_kind h' (show 2 ≤ nod by decide) with ⟨hnone, -⟩ | ⟨_, _, _, -, -, hsome⟩
    · rw [hnone] at hf'
      cases hf'
    · exact ⟨_, hsome⟩
  obtain ⟨pre', x', post', rfl, hf'', rfl⟩ := nod_split h' hn'
  rw [hf'', Option.some.injEq, Opt.opt.injEq] at hf'
  obtain rfl := hf'.2
  obtain ⟨hbytes', -, hlen₁'⟩ := nod_bytes h'
  have hcopy : ∀ i < x'.length + 2, p' (p'.optOff + (encode pre').length + i) =
      p (p.optOff + (encode pre).length + i) := by
    intro i hi
    rw [of_read hbytes' (by simpa using hi), of_read hbytes (by simpa using hi)]
  rw [hlen₁] at hin
  have hidl : onop.length = 4 := rfl
  obtain ⟨r, rfl, -, hwalk'⟩ := nodWalk_copy hcopy (by omega) hwalk (by omega)
  have hheader' : getNodHeader env.gap p' onop =
      .ok (some (p'.optOff + (encode pre').length + r)) := by
    unfold getNodHeader
    rw [hn', ok_bind]
    dsimp only
    rw [hlen₁', if_pos (by omega), hwalk']
  have hbyte : p' (p'.optOff + (encode pre').length + r + 1) =
      p (p.optOff + (encode pre).length + r + 1) := by
    rw [Nat.add_assoc, Nat.add_assoc _ r]
    exact hcopy (r + 1) (by omega)
  have hdata' : getNodHeaderData env.gap p' onop =
      .ok ⟨4, some (p'.optOff + (encode pre').length + r + onop.length + 2)⟩ := by
    unfold getNodHeaderData
    rw [hheader', ok_bind]
    dsimp only
    have hi' : nodIdlen p' (p'.optOff + (encode pre').length + r) = onop.length := by
      rw [← hidlen]
      unfold nodIdlen
      rw [hbyte]
    have hl' : nodHdrLen p' (p'.optOff + (encode pre').length + r) = onop.length + 2 + 4 := by
      rw [← hlen]
      unfold nodHdrLen
      rw [hbyte]
    rw [hi', hl']
    rfl
  rw [remoteID_of_data env hdata', ← hid]
  refine congrArg _ (congrArg _ (OpennopId.bytes_inj ?_))
  rw [OpennopId.load_bytes, OpennopId.load_bytes]
  refine read_copy fun j hj => ?_
  simp only [Nat.add_assoc] at hcopy ⊢
  exact hcopy _ (by omega)

end Announce

end Opennop
