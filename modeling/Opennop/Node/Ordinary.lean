import Opennop.Node.Bounds
import Opennop.Node.Learns
import Opennop.Node.Segments

/-!
# Packets of an endpoint at the first node

An ordinary packet is one that no accelerator has touched and that has room for what an accelerator
adds. On such a packet nothing of the rewriting fails, and the packet that the node sends on is
known: it is untagged, or the session records the local node for the side that the packet comes
from; and when the data has been compressed, the tag and the flag say so.
-/

namespace Opennop

open Mem

/-! ## Packets on the wire -/

/-- The bytes that are sent: the packet up to its total length. -/
def Mem.trimmed (p : Mem) : Mem := p.cut p.totLen

/-- A packet as another one with the same ends comes out of the next node. -/
structure Carried (p q : Mem) : Prop where
  ends : SameEnds p q
  doff : 5 ≤ q.doff
  whole : q.trimmed = q

theorem cut_cut (p : Mem) (n : Nat) : (p.cut n).cut n = p.cut n := by
  funext i
  unfold cut
  split <;> rfl

theorem Shows.trimmed {p q : Mem} {D : Nat} {os : List Opt} {d : List UInt8} (h : Shows q D os d)
    (hends : SameEnds p q) (ht : 4 * q.ihl + 4 * D + d.length < 65536) :
    Carried p q.trimmed ∧ Shows q.trimmed D os d := by
  have h5 := h.five_le
  have htot := h.totLen
  rw [Nat.mod_eq_of_lt ht] at htot
  have hlen : q.tcpOff + 4 * D + d.length ≤ q.totLen := by
    unfold tcpOff
    omega
  obtain ⟨hcut, hdoff, htotcut, -⟩ := sameEnds_cut q h.ihl (show q.tcpOff + 20 ≤ q.totLen by omega)
  refine ⟨⟨hends.trans hcut, ?_, ?_⟩, h.cut hlen⟩
  · rw [Mem.trimmed, hdoff, h.doff]
    exact h5
  · rw [Mem.trimmed, Mem.trimmed, htotcut]
    exact cut_cut q q.totLen

/-! ## Reading tags -/

/-- The first NOD option decides what a packet announces. -/
theorem remoteID_first (env : Env) {p : Mem} {D : Nat} {os : List Opt} {d : List UInt8}
    (h : Shows p D os d) {id : OpennopId} (hf : firstOfKind nod os = some (tag id.bytes)) :
    remoteID env p = .ok (some id) := by
  obtain ⟨-, pre, post, rfl, hpre⟩ := List.find?_eq_some_iff_append.1 hf
  exact remoteID_tag env h (List.find?_eq_none.2 fun o ho => by simpa using hpre o ho)

theorem not_announces_of_absent (env : Env) {p : Mem} {D : Nat} {os : List Opt} {d : List UInt8}
    (h : Shows p D os d) (hf : firstOfKind nod os = none) : ¬ Announces env p := by
  rintro ⟨remote, id, hremote, hdomain⟩
  rw [remoteID_absent env h hf, Except.ok.injEq] at hremote
  subst hremote
  exact nomatch hdomain

/-- Tagging a packet that has room for the tag, and for the growth in its length field. -/
theorem setTag_shows (env : Env) {p : Mem} {D : Nat} {os : List Opt} {d : List UInt8}
    (h : Shows p D os d) (hf : firstOfKind nod os = none) (hused : used os ≤ 28)
    (hlen : 4 * p.ihl + 60 + d.length < 65536) :
    ∃ p' D' os', setTag env p = .ok p' ∧ Shows p' D' os' d ∧ SameHeader p p' := by
  have hD := h.doff_lt
  have hu := h.used_le
  by_cases hfull : 4 * D - 20 < used os + 12
  · have hgrown := (room_iff 8 h.five_le hD hu).2 (by omega)
    obtain ⟨p', hset, h', hh⟩ :=
      setNodHeaderData_grow env.gap h (by omega) hf env.id.length_bytes (by omega) hfull
      (by omega)
    exact ⟨p', _, _, hset, h', hh⟩
  · obtain ⟨p', hset, h', hh⟩ :=
      setNodHeaderData_free env.gap h (by omega) hf env.id.length_bytes (by omega)
      (by omega)
    exact ⟨p', _, _, hset, h', hh⟩

/-! ## Ordinary packets -/

/-- A whole packet without tag and flag, with room for both and padded to less than the tag. -/
structure Ordinary (p : Mem) (os : List Opt) : Prop where
  wellFormed : WellFormed p os
  tcp : p.protocol = ipprotoTcp
  untagged : firstOfKind nod os = none
  unflagged : firstOfKind compressed os = none
  room : used os ≤ 24
  padding : 4 * p.doff - 20 < used os + 12
  length : p.totLen + 40 < 65536
  whole : p.trimmed = p

namespace Ordinary

variable {env : Env} {p : Mem} {os : List Opt} (h : Ordinary p os)
include h

theorem shows : Shows p p.doff os p.payload := h.wellFormed.payload_shows.1

theorem length_le : 4 * p.ihl + 60 + p.payload.length < 65536 := by
  have hlen := h.wellFormed.payload_shows.2
  have hdoff := h.wellFormed.doff
  have := h.length
  omega

theorem not_announces (env : Env) : ¬ Announces env p :=
  not_announces_of_absent env h.shows h.untagged

theorem remoteID_eq (env : Env) : remoteID env p = .ok none :=
  remoteID_absent env h.shows h.untagged

theorem trimmed {q : Mem} {D : Nat} {os' : List Opt} {d : List UInt8} (hq : Shows q D os' d)
    (hends : SameEnds p q) (hd : d.length ≤ p.payload.length) :
    Carried p q.trimmed ∧ Shows q.trimmed D os' d := by
  have hlen := h.length_le
  have hD := hq.doff_lt
  exact hq.trimmed hends (by rw [hends.ihl]; omega)

theorem carried : Carried p p := ⟨⟨rfl, rfl, rfl, rfl, rfl, rfl, rfl⟩, h.wellFormed.doff, h.whole⟩

theorem checksum_trimmed :
    Carried p (checksum p).trimmed ∧ ∀ env, ¬ Announces env (checksum p).trimmed := by
  obtain ⟨hcarried, hshows⟩ :=
    h.trimmed h.shows.checksum (sameEnds_checksum h.wellFormed.ihl) (Nat.le_refl _)
  exact ⟨hcarried, fun env => not_announces_of_absent env hshows h.untagged⟩

/-! ### The fetcher -/

theorem lowerMss (env : Env) : Post (Opennop.lowerMss env p) fun o => ∀ p', o = some p' →
    SameEnds p p' ∧ Carried p (Opennop.checksum p').trimmed := by
  have hlen := h.length_le
  have hD := doff_lt p
  unfold Opennop.lowerMss
  refine Post.bind (P := fun _ => True) (fun _ _ => trivial) fun v _ => ?_
  dsimp only
  split
  · obtain ⟨p₁, r, hset, h₁, hh₁, -⟩ :=
      setTcpOption_shows h.shows (by omega) (show 2 ≤ mss by decide)
      (show 2 ≤ 4 by decide) (by decide) (v % 65536 - 60)
    rw [hset, ok_bind]
    dsimp only
    have hused :=
      used_setOption_le (show 2 ≤ mss by decide) (dataBytes (4 - 2) (v % 65536 - 60)) p.doff os
    rw [length_dataBytes] at hused
    have hroom := h.room
    obtain ⟨p₂, D₂, os₂, htag, h₂, hh₂⟩ := setTag_shows env h₁
      (by rw [firstOfKind_setOption_ne (by decide) (by decide)]; exact h.untagged) (by omega)
      (by rw [hh₁.ihl]; exact hlen)
    rw [htag, ok_bind]
    refine Post.ok ?_
    rintro p' ⟨⟩
    have hends := (hh₁.trans hh₂).sameEnds h.wellFormed.ihl
    exact ⟨hends,
      (h.trimmed h₂.checksum (hends.trans (sameEnds_checksum h₂.ihl)) (Nat.le_refl _)).1⟩
  · exact Post.ok fun p' hp' => nomatch hp'

end Ordinary

/-- The bytes of a packet that a verdict sends on, if it does. -/
def Verdict.sent (original : Mem) : Verdict → Option Mem
  | .accept p => some p.trimmed
  | .acceptOriginal => some original
  | _ => none

theorem sent_dataVerdict (env : Env) (remote : Option OpennopId) (ret : Nat) (buffer : Bool)
    (p : Mem) (queue : Nat) (original : Mem) :
    (dataVerdict env remote ret buffer p queue).sent original = none := by
  unfold dataVerdict
  split
  · split <;> rfl
  · rfl

/-- What the first node sends on for the packet `p`: an untagged packet, or its session records the
local node. -/
def SentOn (env : Env) (p : Mem) (st : Option Session) (q : Mem) : Prop :=
  Carried p q ∧
    ((∀ env', ¬ Announces env' q) ∨ ∃ s, st = some s ∧
      s.accel (sourceSide p.key.largerIP p) = env.id)

namespace Ordinary

variable {env : Env} {p : Mem} {os : List Opt} (h : Ordinary p os)
include h

theorem sentOn_self (st : Option Session) : SentOn env p st p.trimmed := by
  rw [h.whole]
  exact ⟨h.carried, .inl h.not_announces⟩

theorem sentOn_checksum (st : Option Session) : SentOn env p st (checksum p).trimmed :=
  ⟨h.checksum_trimmed.1, .inl h.checksum_trimmed.2⟩

/-- A handshake packet is left as it is, or the session records the local node. -/
theorem handshakeRecord (h0 : p.key.largerIP ≠ 0) (s : Session) :
    Post (Opennop.handshakeRecord env none p s) fun r => r.2 = none ∨
      ∃ p', r.2 = some p' ∧ Carried p (checksum p').trimmed ∧
        r.1.accel (sourceSide p.key.largerIP p) = env.id := by
  refine Post.bind (h.lowerMss env) fun o ho => ?_
  cases o with
  | none => exact Post.ok (.inl rfl)
  | some p' =>
    obtain ⟨hends, hcarried⟩ := ho p' rfl
    have hside : sourceSide p.key.largerIP p' = sourceSide p.key.largerIP p := by
      unfold sourceSide
      rw [hends.saddr]
    refine Post.ok (.inr ⟨p', rfl, hcarried, ?_⟩)
    rw [Session.accel_saveacceleratorid, hside, if_pos ⟨h0, rfl⟩]

/-- **The fetcher of the first node.** -/
theorem fetcherRecord (h0 : p.key.largerIP ≠ 0) (id ret : Nat) (buffer : Bool)
    (new st : Option Session) :
    Post (Opennop.fetcherRecord env id ret buffer new p st) fun r =>
      ∀ q, r.2.sent p = some q → SentOn env p r.1 q := by
  have horiginal : SentOn env p st p := ⟨h.carried, .inl h.not_announces⟩
  refine fetcherRecord_cases (P := (Post · fun r => ∀ q, r.2.sent p = some q → SentOn env p r.1 q))
    (h.remoteID_eq env) id ret buffer (Post.ok ?_) (fun _ => Post.ok ?_) (fun s _ => ?_)
    (fun s _ => ?_) (fun s _ => Post.ok ?_) nofun
  · rintro q ⟨⟩
    exact horiginal
  · rintro q ⟨⟩
    exact h.sentOn_self _
  · refine Post.bind (h.handshakeRecord h0 _) fun r hr => Post.ok ?_
    rintro q ⟨⟩
    rcases hr with htagged | ⟨p', htagged, hcarried, haccel⟩
    · rw [htagged]
      exact h.sentOn_self _
    · rw [htagged]
      exact ⟨hcarried, .inr ⟨_, rfl, (Session.accel_setState _ _ _).trans haccel⟩⟩
  · refine Post.bind (h.handshakeRecord h0 _) fun r hr => Post.ok ?_
    rintro q ⟨⟩
    rcases hr with htagged | ⟨p', htagged, hcarried, haccel⟩
    · rw [htagged]
      exact h.sentOn_checksum _
    · rw [htagged]
      exact ⟨hcarried, .inr ⟨_, rfl, (Session.accel_setState _ _ _).trans haccel⟩⟩
  · intro q hq
    rw [sent_dataVerdict] at hq
    cases hq

/-! ### The workers -/

theorem setTag (env : Env) : ∃ p', Opennop.setTag env p = .ok p' ∧
    Shows p' (grown p.doff (used os) 12) (squeezed os ++ [tag env.id.bytes]) p.payload ∧
      SameHeader p p' := by
  have hlen := h.length_le
  have hroom := h.room
  have hD := doff_lt p
  have hgrown := (room_iff 8 h.wellFormed.doff hD h.shows.used_le).2 (by omega)
  exact setNodHeaderData_grow env.gap h.shows (by omega) h.untagged env.id.length_bytes
    (by omega) h.padding
    (by omega)

theorem firstOfKind_tagged (x : List UInt8) :
    firstOfKind nod (squeezed os ++ [tag x]) = some (tag x) := by
  have hnone : firstOfKind nod (squeezed os) =
    none := by rw [firstOfKind_squeezed os (by decide), h.untagged]
  unfold firstOfKind at hnone ⊢
  rw [List.find?_append, hnone]
  rfl

theorem flagLands (x : OpennopId) : FlagLands (squeezed os ++ [tag x.bytes]) := by
  have hroom := h.room
  have hused : used (squeezed os ++ [tag x.bytes]) = used os + 12 := used_last os nod _
  refine .inr (.inr ⟨?_, by omega⟩)
  rw [tag, firstOfKindLen_tagged]
  by_contra hsome
  obtain ⟨o, ho⟩ := Option.ne_none_iff_exists'.1 hsome
  obtain ⟨o', ho'⟩ := firstOfKind_isSome ho
  rw [h.unflagged] at ho'
  cases ho'

end Ordinary

/-! ### Handshakes -/

namespace Ordinary

variable {env : Env} {p : Mem} {os : List Opt} (h : Ordinary p os)
include h

theorem lowerMss_absent (hmss : firstOfKind mss os = none) : Opennop.lowerMss env p = .ok none := by
  unfold Opennop.lowerMss
  rw [getTcpOption_shows h.shows (by decide), hmss, ok_bind]
  rfl

/-- An MSS is lowered in its place, and the tag is added. -/
theorem lowerMss_tags (env : Env) {x : List UInt8} (hmss : firstOfKind mss os = some (.opt mss x))
    (hx : x.length = 2) (h60 : 60 < (Opt.opt mss x).value % 65536) :
    ∃ p', Opennop.lowerMss env p = .ok (some p') ∧ SameEnds p p' ∧
      Carried p (checksum p').trimmed ∧ ∀ env', remoteID env' (checksum p').trimmed =
        .ok (some env.id) := by
  have hlen := h.length_le
  have hroom := h.room
  have hD := doff_lt p
  have hsome : (firstOfKindLen mss 4 os).isSome :=
    Option.isSome_iff_ne_none.2 (firstOfKindLen_of_first hmss (by simp [hx]))
  generalize hv : (Opt.opt mss x).value % 65536 - 60 = v
  obtain ⟨p₁, r, hset, h₁, hh₁, -⟩ := setTcpOption_shows h.shows (by omega) (show 2 ≤ mss by decide)
    (show 2 ≤ 4 by decide) (by decide) v
  have hoption : setOption mss (dataBytes (4 - 2) v) p.doff os =
      (p.doff, overwriteFirst mss (dataBytes (4 - 2) v) os) :=
    if_pos (by rw [length_dataBytes]; exact hsome)
  have huntagged : firstOfKind nod (setOption mss (dataBytes (4 - 2) v) p.doff os).2 =
      firstOfKind nod os :=
    firstOfKind_setOption_ne (by decide) (by decide) _ _ _
  rw [hoption] at h₁ huntagged
  rw [h.untagged] at huntagged
  dsimp only at h₁ huntagged
  have hused := used_overwriteFirst (show 2 ≤ mss by decide) (dataBytes (4 - 2) v) os
  generalize overwriteFirst mss (dataBytes (4 - 2) v) os = os₁ at h₁ huntagged hused
  have hgrown := (room_iff 8 h₁.five_le h₁.doff_lt h₁.used_le).2 (by omega)
  obtain ⟨p₂, htag, h₂, hh₂⟩ := setNodHeaderData_grow env.gap h₁ (by rw [hh₁.ihl]; omega) huntagged
    env.id.length_bytes (by omega) (by rw [hused]; exact h.padding) (by rw [hh₁.ihl]; omega)
  have hends := (hh₁.trans hh₂).sameEnds h.wellFormed.ihl
  obtain ⟨hcarried, hshows⟩ :=
    h.trimmed h₂.checksum (hends.trans (sameEnds_checksum h₂.ihl)) (Nat.le_refl _)
  refine ⟨p₂, ?_, hends, hcarried, fun env' => remoteID_tag env' hshows ?_⟩
  · unfold Opennop.lowerMss
    rw [getTcpOption_shows h.shows (by decide), hmss, ok_bind]
    dsimp only
    rw [if_pos h60, hv, hset, ok_bind]
    dsimp only [Opennop.setTag]
    rw [htag]
    rfl
  · rw [firstOfKind_squeezed os₁ (by decide), huntagged]

end Ordinary

theorem workerRecord_of_process {env : Env} {reread p : Mem} {remote : Option OpennopId}
    {s s' : Session} {q : Mem} {kept : Bool} (hr : remoteID env p = .ok remote)
    (hproc : processRecord env remote p s = .ok (s', q, kept)) :
    workerRecord env reread p (some s) =
      .ok (endRecord (if kept then q else reread) s', if kept then .accept (checksum q)
        else .drop) := by
  unfold workerRecord
  rw [hr, ok_bind]
  dsimp only
  rw [hproc, ok_bind]
  rfl

/-- The worker compresses the packet: it calls `tcp_compress`, and the data gets shorter. -/
def Packs (env : Env) (st : Option Session) (p : Mem) : Prop :=
  ∃ s q, st = some s ∧ Compresses env s p q ∧
    Attempted env.qlz env.compression true env.stateCompress q

/-- The packet is tagged, and when it was compressed it has the flag. -/
structure Optimized (env : Env) (p : Mem) (s : Session) (q : Mem) : Prop where
  carried : Carried p (checksum q).trimmed
  tagged : ∀ env', remoteID env' (checksum q).trimmed = .ok (some env.id)
  flagged : Packs env (some s) p → ∃ v, getTcpOption (checksum q).trimmed compressed = .ok v ∧ v ≠ 0

/-- What a worker of the first node sends on for the packet `p`: an untagged packet, or the session,
if it is still there, records the local node. -/
structure WorkedOn (env : Env) (p : Mem) (st st' : Option Session) (q : Mem) : Prop where
  carried : Carried p q
  tagged : (∀ env', ¬ Announces env' q) ∨ Rewritten p ∧ st ≠ none ∧
    ∀ s, st' = some s → s.accel (sourceSide p.key.largerIP p) = env.id
  flagged : Packs env st p → (∀ env', remoteID env' q = .ok (some env.id)) ∧
    ∃ v, getTcpOption q compressed = .ok v ∧ v ≠ 0

namespace Ordinary

variable {env : Env} {p : Mem} {os : List Opt} (h : Ordinary p os)
include h

theorem optimizeRecord (env : Env) (s : Session) :
    ∃ s' q, Opennop.optimizeRecord env p s = .ok (s', q) ∧ Optimized env p s q ∧
    (p.key.largerIP ≠ 0 → s'.accel (sourceSide p.key.largerIP p) = env.id) := by
  have hlen := h.length_le
  obtain ⟨p₁, htag, h₁, hh₁⟩ := h.setTag env
  have hends₁ := hh₁.sameEnds h.wellFormed.ihl
  have hD := h₁.doff_lt
  have ht : 4 * p₁.ihl + 4 * grown p.doff (used os) 12 + p.payload.length < 65536 := by
    rw [hh₁.ihl]
    omega
  have haccel : p.key.largerIP ≠ 0 → (updateseq p.key.largerIP p₁
      (saveacceleratorid p.key.largerIP env.id p s)).accel (sourceSide p.key.largerIP p) =
        env.id := fun h0 => by
    rw [Session.accel_updateseq, Session.accel_saveacceleratorid, if_pos ⟨h0, rfl⟩]
  -- what is read off the packet that is sent
  have hsent : ∀ {q : Mem} {D : Nat} {os' : List Opt} {d : List UInt8}, Shows q D os' d →
    SameEnds p q → d.length ≤ p.payload.length → firstOfKind nod os' = some (tag env.id.bytes) →
      (Packs env (some s) p → flagValue os' ≠ 0) → Optimized env p s q := by
    intro q D os' d hq hends hd hf hflag
    obtain ⟨hcarried, hshows⟩ := h.trimmed hq.checksum (hends.trans (sameEnds_checksum hq.ihl)) hd
    exact ⟨hcarried, fun env' => remoteID_first env' hshows hf,
      fun hp => ⟨_, getTcpOption_flag hshows, hflag hp⟩⟩
  have hpacks : Packs env (some s) p →
      mayCompress env p.key p₁ (saveacceleratorid p.key.largerIP env.id p s) = true ∧
        Attempted env.qlz env.compression true env.stateCompress p₁ := by
    rintro ⟨s', q, hs', hc, ha⟩
    cases hs'
    obtain rfl : p₁ = q := Except.ok.inj (htag.symm.trans hc.tag)
    exact ⟨hc.may, ha⟩
  unfold Opennop.optimizeRecord
  dsimp only
  rw [htag, ok_bind]
  by_cases hmay : mayCompress env p.key p₁ (saveacceleratorid p.key.largerIP env.id p s) = true
  · rw [if_pos hmay]
    by_cases ha : Attempted env.qlz env.compression true env.stateCompress p₁
    · obtain ⟨q, hq, hshow, -, hends⟩ := tcpCompress_shows h₁ ht ha
      rw [hq, ok_bind]
      have hless := ha.2.2.2.2
      rw [qlzCompress_eq h₁ (by omega), h₁.dataLen (by omega), ← length_sent] at hless
      refine ⟨_, q, rfl, hsent hshow (hends₁.trans hends) (by omega) ?_ fun _ => ?_, haccel⟩
      · rw [firstOfKind_setOption_ne (by decide) (by decide)]
        exact h.firstOfKind_tagged _
      · exact (flagValue_setOption _ _).2 (h.flagLands env.id)
    · obtain ⟨r, hr⟩ := tcpCompress_unchanged ha
      rw [hr, ok_bind]
      exact ⟨_, p₁, rfl, hsent h₁ hends₁ (Nat.le_refl _) (h.firstOfKind_tagged _) fun hp =>
        absurd (hpacks hp).2 ha, haccel⟩
  · rw [if_neg hmay]
    exact ⟨_, p₁, rfl, hsent h₁ hends₁ (Nat.le_refl _) (h.firstOfKind_tagged _) fun hp =>
      absurd (hpacks hp).1 hmay, haccel⟩

/-- A worker tags a packet with data, and compresses it when the session lets it. -/
theorem workerRecord_rewritten (env : Env) (hflags : Rewritten p) (reread : Mem) (s : Session) :
    ∃ s' q, Opennop.workerRecord env reread p (some s) =
      .ok (endRecord q s', .accept (checksum q)) ∧
      Optimized env p s q ∧
        (p.key.largerIP ≠ 0 → s'.accel (sourceSide p.key.largerIP p) = env.id) := by
  obtain ⟨s', q, hopt, hq, haccel⟩ := h.optimizeRecord env s
  have hproc : processRecord env none p s = .ok (s', q, true) := by
    unfold processRecord
    rw [if_pos (show ¬ p.syn ∧ p.ack ∧ ¬ p.fin from hflags)]
    dsimp only [inDomain, Option.filter_none]
    rw [hopt]
    rfl
  exact ⟨s', q, workerRecord_of_process (h.remoteID_eq env) hproc, hq, haccel⟩

theorem workerRecord_other (hflags : ¬ Rewritten p) (reread : Mem) (s : Session) :
    Opennop.workerRecord env reread p (some s) = .ok (endRecord p s, .accept (checksum p)) := by
  have hproc : processRecord env none p s = .ok (s, p, true) := if_neg hflags
  exact workerRecord_of_process (h.remoteID_eq env) hproc

/-- **The workers of the first node.** -/
theorem workerRecord (h0 : p.key.largerIP ≠ 0) (reread : Mem) (st : Option Session) :
    Post (Opennop.workerRecord env reread p st) fun r =>
      ∀ q, r.2.sent p = some q → WorkedOn env p st r.1 q := by
  cases st with
  | none =>
    unfold Opennop.workerRecord
    rw [h.remoteID_eq env, ok_bind]
    refine Post.ok ?_
    rintro q ⟨⟩
    exact ⟨h.carried, .inl h.not_announces, fun ⟨s, _, hs, _⟩ => nomatch hs⟩
  | some s =>
    by_cases hflags : Rewritten p
    · obtain ⟨s', q', hrec, hq', haccel⟩ := h.workerRecord_rewritten env hflags reread s
      rw [hrec]
      refine Post.ok ?_
      rintro q ⟨⟩
      refine ⟨hq'.carried, .inr ⟨hflags, Option.some_ne_none s, fun s'' hs'' => ?_⟩,
        fun hp => ⟨hq'.tagged, hq'.flagged hp⟩⟩
      rw [accel_endRecord hs'', haccel h0]
    · rw [h.workerRecord_other hflags reread s]
      refine Post.ok ?_
      rintro q ⟨⟩
      refine ⟨h.checksum_trimmed.1, .inl h.checksum_trimmed.2, ?_⟩
      rintro ⟨s', q, -, hc, -⟩
      exact absurd hc.flags hflags

end Ordinary

end Opennop
