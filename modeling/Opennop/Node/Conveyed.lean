import Opennop.Node.Intact
import Opennop.Node.Relied

/-!
# What passes through a node

The first node sends an ordinary packet on as it is, with its tag, or with its tag and compressed;
on the second node each of the three is followed up to what it sends to the endpoint. None of the
calls fails on the way, and what comes out is the packet that went in, intact: an untagged packet is
to the second node what it was to the first one, a tagged one passes, and a compressed one is
decompressed if the session has the node for its own side.
-/

namespace Opennop

open Mem

/-! ## Packets between the nodes -/

/-- The data, the sequence number and no flag. -/
structure Plain (p : Mem) (os : List Opt) (m : Mem) : Prop where
  stands : ∃ D os', Stands p os m D os' p.payload ∧ firstOfKind compressed os' = none
  seq : m.seq = p.seq
  whole : m.trimmed = m

/-- A packet that the node `id` has sent on uncompressed: as ordinary as it was, or with the tag. -/
inductive Forwarded (id : OpennopId) (p : Mem) (os : List Opt) (m : Mem) : Prop
  | untagged : Plain p os m → Ordinary m os → Forwarded id p os m
  | tagged : Plain p os m → (∀ env, remoteID env m = .ok (some id)) → Forwarded id p os m

/-- A packet that the node `id` has sent on with compressed data, the tag and the flag. -/
structure Packed (id : OpennopId) (compress : List UInt8 → List UInt8) (p : Mem) (os : List Opt)
    (m : Mem) : Prop where
  stands : ∃ D os', Stands p os m D os' (compress p.payload) ∧ flagValue os' ≠ 0
  seq : m.seq = (p.seq + 8000) % 4294967296
  whole : m.trimmed = m
  tag : ∀ env, remoteID env m = .ok (some id)
  data : p.payload ≠ []
  short : (compress p.payload).length < 65536
  rewritten : Rewritten p

/-- What is between the nodes in place of the packet `p`. -/
structure Conveys (env : Env) (p : Mem) (os : List Opt) (m : Mem) (packed : Prop) : Prop where
  forwarded : ¬ packed → Forwarded env.id p os m
  compressed : packed → Packed env.id env.qlz.compress p os m

theorem Forwarded.plain {id : OpennopId} {p m : Mem} {os : List Opt} (h : Forwarded id p os m) :
    Plain p os m := by
  cases h with
  | untagged h _ => exact h
  | tagged h _ => exact h

namespace Plain

variable {p m m' : Mem} {os : List Opt}

theorem refl (h : Ordinary p os) : Plain p os p :=
  ⟨⟨_, _, Stands.refl h.wellFormed, h.unflagged⟩, rfl, h.whole⟩

theorem fields (h : Plain p os m) : SameFields p m := by
  obtain ⟨D, os', hs, -⟩ := h.stands
  exact hs.fields

theorem payload (h : Plain p os m) (hp : Ordinary p os) : m.payload = p.payload := by
  obtain ⟨D, os', hs, -⟩ := h.stands
  have hlen := hp.length_le
  have hD := hs.shows.doff_lt
  exact hs.shows.payload (by rw [hs.fields.ihl hp.wellFormed.ihl]; omega)

theorem intact (h : Plain p os m) (hp : Ordinary p os) : Intact p os m := by
  obtain ⟨D, os', hs, -⟩ := h.stands
  have hlen := hp.length_le
  have hD := hs.shows.doff_lt
  exact hs.intact hp.wellFormed.ihl (by omega) h.seq

theorem checksum (h : Plain p os m) (hp : Ordinary p os) : Plain p os (checksum m).trimmed := by
  obtain ⟨D, os', hs, hflag⟩ := h.stands
  have hlen := hp.length_le
  have hD := hs.shows.doff_lt
  have hi := hp.wellFormed.ihl
  obtain ⟨hs', hwhole, hseq⟩ := (hs.checksum hi).trimmed hi (by omega)
  exact ⟨⟨D, os', hs', hflag⟩, by rw [hseq, seq_checksum hs.shows.ihl, h.seq], hwhole⟩

theorem trans (h : Plain p os m) (hm : Plain m os m') (hp : Ordinary p os) : Plain p os m' := by
  have hpay := h.payload hp
  obtain ⟨D, os', hs, -⟩ := h.stands
  obtain ⟨D', os'', hs', hflag⟩ := hm.stands
  rw [hpay] at hs'
  exact ⟨⟨D', os'', ⟨hs'.shows, h.fields.trans hs'.fields hp.wellFormed.ihl, hs'.foreign⟩, hflag⟩,
    hm.seq.trans h.seq, hm.whole⟩

theorem getTcpOption (h : Plain p os m) : getTcpOption m compressed = .ok 0 := by
  obtain ⟨D, os', hs, hflag⟩ := h.stands
  rw [getTcpOption_flag hs.shows, flagValue, hflag]

end Plain

theorem Conveys.fields {env : Env} {p m : Mem} {os : List Opt} {packed : Prop}
    (h : Conveys env p os m packed) :
    SameFields p m := by
  by_cases hpacked : packed
  · obtain ⟨D, os', hs, -⟩ := (h.compressed hpacked).stands
    exact hs.fields
  · exact (h.forwarded hpacked).plain.fields

/-! ## The first node -/

/-- An option that is set leaves less than a tag's room behind the options, if there was not
more. -/
theorem setOption_padding {k : UInt8} (hk : 2 ≤ k) (x : List UInt8) {D : Nat} {os : List Opt}
    (h5 : 5 ≤ D) (hu : used os ≤ 4 * D - 20) (h : 4 * D - 20 < used os + 12) :
    4 * (setOption k x D os).1 - 20 < used (setOption k x D os).2 + 12 := by
  have hsqueezed : used (squeezed os) = used os := by
    unfold used
    rw [squeezed_squeezed]
  unfold setOption
  split
  · rwa [used_overwriteFirst hk]
  · split
    · rw [used_cons hk rfl, hsqueezed, Opt.length_encode_opt]
      dsimp only
      unfold grown
      rw [dwords_eq]
      omega
    · rwa [hsqueezed]

namespace Ordinary

variable {env : Env} {p : Mem} {os : List Opt} (h : Ordinary p os)
include h

theorem forwarded_self (id : OpennopId) : Forwarded id p os p := .untagged (Plain.refl h) h

theorem checksum_ordinary : Ordinary (checksum p).trimmed os := by
  have hi := h.wellFormed.ihl
  have hlen := h.length_le
  have hD := doff_lt p
  have htot := h.wellFormed.payload_shows.2
  have hplain := (Plain.refl h).checksum h
  obtain ⟨hs, hwhole, -⟩ := ((Stands.refl h.wellFormed).checksum hi).trimmed hi (by omega)
  have hihl := hs.fields.ihl hi
  have hdoff := hs.shows.doff
  have htot' := hs.shows.totLen
  rw [hihl, Nat.mod_eq_of_lt (by omega)] at htot'
  obtain ⟨os', hwf, -⟩ := (hplain.intact h).options
  refine ⟨⟨hwf.ihl, hwf.doff, hwf.totLen, ?_⟩, ?_, h.untagged, h.unflagged, h.room, ?_, ?_, hwhole⟩
  · rw [hdoff]
    exact hs.shows.area
  · rw [(hs.fields.ends hi).protocol]
    exact h.tcp
  · rw [hdoff]
    exact h.padding
  · have := h.length
    omega

theorem forwarded_checksum (id : OpennopId) : Forwarded id p os (checksum p).trimmed :=
  .untagged ((Plain.refl h).checksum h) h.checksum_ordinary

theorem forwarded_tag (env : Env) {m : Mem} {D : Nat} {os' : List Opt}
    (hs : Stands p os m D os' p.payload) (hseq : m.seq = p.seq)
    (huntagged : firstOfKind nod os' = none) (hunflagged : firstOfKind compressed os' = none)
    (hroom : used os' ≤ 28) (hpadding : 4 * D - 20 < used os' + 12) :
    ∃ m', Opennop.setTag env m = .ok m' ∧ Forwarded env.id p os (checksum m').trimmed := by
  have hi := h.wellFormed.ihl
  have hlen := h.length_le
  have hD := hs.shows.doff_lt
  have hihl := hs.fields.ihl hi
  have hgrown := (room_iff 8 hs.shows.five_le hD hs.shows.used_le).2 (by omega)
  obtain ⟨m', hset, hm', hh'⟩ :=
    setNodHeaderData_grow env.gap hs.shows (by rw [hihl]; omega) huntagged
    env.id.length_bytes (by omega) hpadding (by rw [hihl]; omega)
  have hD' := hm'.doff_lt
  have hs' := hs.header hi hm' hh' (foreign_tagged os' _)
  obtain ⟨ht, hwhole, hseq'⟩ := (hs'.checksum hi).trimmed hi (by omega)
  refine ⟨m', hset, .tagged ⟨⟨_, _, ht, ?_⟩, ?_, hwhole⟩ fun env' => remoteID_tag env' ht.shows ?_⟩
  · unfold firstOfKind at hunflagged ⊢
    rw [List.find?_append, ← firstOfKind, firstOfKind_squeezed os' (by decide),
      firstOfKind, hunflagged]
    rfl
  · rw [hseq', seq_checksum hm'.ihl, hh'.seq hs.shows.ihl, hseq]
  · rw [firstOfKind_squeezed os' (by decide), huntagged]

/-- The handshake: an MSS that is lowered comes with the tag. -/
theorem lowerMss_forwards (env : Env) : ∃ o, Opennop.lowerMss env p = .ok o ∧
    ∀ p', o = some p' → Forwarded env.id p os (checksum p').trimmed := by
  have hi := h.wellFormed.ihl
  have hlen := h.length_le
  have hD := doff_lt p
  have hshows := h.shows
  obtain ⟨v, hget⟩ : ∃ v, getTcpOption p mss = .ok v := ⟨_, getTcpOption_shows hshows (by decide)⟩
  unfold Opennop.lowerMss
  rw [hget, ok_bind]
  dsimp only
  by_cases hv : v % 65536 > 60
  · rw [if_pos hv]
    obtain ⟨p₁, r, hset, h₁, hh₁, -⟩ :=
      setTcpOption_shows hshows (by omega) (show 2 ≤ mss by decide)
      (show 2 ≤ 4 by decide) (by decide) (v % 65536 - 60)
    have hused :=
      used_setOption_le (show 2 ≤ mss by decide) (dataBytes (4 - 2) (v % 65536 - 60)) p.doff os
    rw [length_dataBytes] at hused
    have hroom := h.room
    have hs := (Stands.refl h.wellFormed).header hi h₁ hh₁ (foreign_setOption (by decide) _ _ _)
    obtain ⟨p₂, htag, hforwarded⟩ := h.forwarded_tag env hs (hh₁.seq hi)
      (by rw [firstOfKind_setOption_ne (by decide) (by decide)]; exact h.untagged)
      (by rw [firstOfKind_setOption_ne (by decide) (by decide)]; exact h.unflagged) (by omega)
      (setOption_padding (by decide) _ h.wellFormed.doff hshows.used_le h.padding)
    refine ⟨some p₂, ?_, ?_⟩
    · rw [hset, ok_bind]
      dsimp only
      rw [htag]
      rfl
    · rintro p' ⟨⟩
      exact hforwarded
  · rw [if_neg hv]
    exact ⟨none, rfl, fun p' hp' => nomatch hp'⟩

theorem handshakeRecord_forwards (env : Env) (s : Session) :
    ∃ r, Opennop.handshakeRecord env none p s = .ok r ∧
      ∀ p', r.2 = some p' → Forwarded env.id p os (checksum p').trimmed := by
  obtain ⟨o, ho, hforwards⟩ := h.lowerMss_forwards env
  unfold Opennop.handshakeRecord
  dsimp only [inDomain, Option.filter_none]
  rw [ho, ok_bind]
  cases o with
  | none => exact ⟨_, rfl, fun p' hp' => nomatch hp'⟩
  | some p' => exact ⟨_, rfl, hforwards⟩

/-- **The fetcher of the first node** does not fail, and what it sends on is not compressed. -/
theorem fetcherRecord_forwards (env : Env) (id ret : Nat) (buffer : Bool)
    (new st : Option Session) :
    ∃ r, Opennop.fetcherRecord env id ret buffer new p st = .ok r ∧
      ∀ m, r.2.sent p = some m → Forwarded env.id p os m := by
  have hself : Forwarded env.id p os p.trimmed := by
    rw [h.whole]
    exact h.forwarded_self env.id
  refine fetcherRecord_cases
    (P := fun x => ∃ r, x = .ok r ∧ ∀ m, r.2.sent p = some m → Forwarded env.id p os m)
    (h.remoteID_eq env) id ret buffer ⟨_, rfl, ?_⟩ (fun _ => ⟨_, rfl, ?_⟩) (fun s _ => ?_)
    (fun s _ => ?_) (fun s _ => ⟨_, rfl, fun m hm => ?_⟩) nofun
  · rintro m ⟨⟩
    exact h.forwarded_self env.id
  · rintro m ⟨⟩
    exact hself
  · obtain ⟨r, hr, hforwards⟩ := h.handshakeRecord_forwards env
      (updateseq p.key.largerIP p (sourceisclient p.key.largerIP p s))
    dsimp only [synRecord]
    rw [hr, ok_bind]
    refine ⟨_, rfl, ?_⟩
    rintro m ⟨⟩
    cases hr₂ : r.2 with
    | none => exact hself
    | some p' => exact hforwards p' hr₂
  · obtain ⟨r, hr, hforwards⟩ := h.handshakeRecord_forwards env (updateseq p.key.largerIP p s)
    unfold synAckRecord
    rw [hr, ok_bind]
    refine ⟨_, rfl, ?_⟩
    rintro m ⟨⟩
    cases hr₂ : r.2 with
    | none => exact h.forwarded_checksum env.id
    | some p' => exact hforwards p' hr₂
  · rw [sent_dataVerdict] at hm
    cases hm

/-- A worker tags the packet and compresses it if the session lets it. -/
theorem optimizeRecord_conveys (hflags : Rewritten p) (s : Session)
    (hshort : Packs env (some s) p → (env.qlz.compress p.payload).length < 65536) : ∃ s' m,
      Opennop.optimizeRecord env p s = .ok (s', m) ∧
        Conveys env p os (checksum m).trimmed (Packs env (some s) p) := by
  have hi := h.wellFormed.ihl
  have hlen := h.length_le
  obtain ⟨p₁, htag, h₁, hh₁⟩ := h.setTag env
  have hD := h₁.doff_lt
  have hs₁ := (Stands.refl h.wellFormed).header hi h₁ hh₁ (foreign_tagged os _)
  have hroom := h.room
  -- what is sent when the data stays as it is
  have hforwarded : Forwarded env.id p os (checksum p₁).trimmed := by
    obtain ⟨m', htag', hm'⟩ :=
      h.forwarded_tag env (Stands.refl h.wellFormed) rfl h.untagged h.unflagged (by omega)
      h.padding
    obtain rfl : p₁ = m' := Except.ok.inj (htag.symm.trans htag')
    exact hm'
  have hpacks : Packs env (some s) p →
      mayCompress env p.key p₁ (saveacceleratorid p.key.largerIP env.id p s) = true ∧
        Attempted env.qlz env.compression true env.stateCompress p₁ := by
    rintro ⟨s', q, hs', hc, ha⟩
    cases hs'
    obtain rfl : p₁ = q := Except.ok.inj (htag.symm.trans hc.tag)
    exact ⟨hc.may, ha⟩
  unfold Opennop.optimizeRecord
  dsimp only
  rw [htag, ok_bind]
  by_cases hmay : mayCompress env p.key p₁ (saveacceleratorid p.key.largerIP env.id p s) = true
  · rw [if_pos hmay]
    have ht : 4 * p₁.ihl + 4 * grown p.doff (used os) 12 + p.payload.length < 65536 := by
      rw [hh₁.ihl]
      omega
    by_cases ha : Attempted env.qlz env.compression true env.stateCompress p₁
    · obtain ⟨m, hm, hshow, hseq, -⟩ := tcpCompress_shows h₁ ht ha
      have hfields := tcpCompress_sameFields h₁ ht env.compression true env.stateCompress _ hm
      rw [hm, ok_bind]
      have hpack : Packs env (some s) p :=
        ⟨s, p₁, rfl, ⟨⟨⟨hflags, none, h.remoteID_eq env, rfl⟩, htag⟩, hmay⟩, ha⟩
      have hdata : p.payload ≠ [] := by
        have hpos := ha.2.2.1
        rw [h₁.dataLen (by omega)] at hpos
        exact List.length_pos_iff.1 hpos
      have hless := ha.2.2.2.2
      rw [qlzCompress_eq h₁ (by omega), h₁.dataLen (by omega)] at hless
      have hshort := hshort hpack
      rw [sent_eq hshort] at hshow
      have hs₂ := hs₁.trans ⟨hshow, hfields, foreign_setOption (by decide) _ _ _⟩ hi
      have hD₂ := hshow.doff_lt
      rw [Nat.mod_eq_of_lt hshort] at hless
      obtain ⟨hs, hwhole, hseq'⟩ := (hs₂.checksum hi).trimmed hi (by omega)
      refine ⟨_, m, rfl, fun hnot => absurd hpack hnot, fun _ => ?_⟩
      refine ⟨⟨_, _, hs, (flagValue_setOption _ _).2 (h.flagLands env.id)⟩, ?_, hwhole,
        fun env' => ?_, hdata, hshort, hflags⟩
      · rw [hseq', seq_checksum hshow.ihl, hseq, hh₁.seq hi]
      · refine remoteID_first env' hs.shows ?_
        rw [firstOfKind_setOption_ne (by decide) (by decide)]
        exact h.firstOfKind_tagged _
    · obtain ⟨r, hr⟩ := tcpCompress_unchanged ha
      rw [hr, ok_bind]
      exact ⟨_, p₁, rfl, fun _ => hforwarded, fun hp => absurd (hpacks hp).2 ha⟩
  · rw [if_neg hmay]
    exact ⟨_, p₁, rfl, fun _ => hforwarded, fun hp => absurd (hpacks hp).1 hmay⟩

/-- **The workers of the first node** do not fail either, if the compressed length does not outgrow
its 16 bits. -/
theorem workerRecord_conveys (reread : Mem) {st : Option Session}
    (hshort : Packs env st p → (env.qlz.compress p.payload).length < 65536) :
    ∃ r, Opennop.workerRecord env reread p st = .ok r ∧
      ∀ m, r.2.sent p = some m → Conveys env p os m (Packs env st p) := by
  cases st with
  | none =>
    unfold Opennop.workerRecord
    rw [h.remoteID_eq env, ok_bind]
    refine ⟨_, rfl, ?_⟩
    rintro m ⟨⟩
    refine ⟨fun _ => h.forwarded_self env.id, ?_⟩
    rintro ⟨s, q, hs, -⟩
    cases hs
  | some s =>
    by_cases hflags : Rewritten p
    · obtain ⟨s', m, hopt, hm⟩ := h.optimizeRecord_conveys hflags s hshort
      have hproc : processRecord env none p s = .ok (s', m, true) := by
        unfold processRecord
        rw [if_pos (show ¬ p.syn ∧ p.ack ∧ ¬ p.fin from hflags)]
        dsimp only [inDomain, Option.filter_none]
        rw [hopt]
        rfl
      refine ⟨_, workerRecord_of_process (h.remoteID_eq env) hproc, ?_⟩
      rintro m' ⟨⟩
      exact hm
    · refine ⟨_, h.workerRecord_other hflags reread s, ?_⟩
      rintro m ⟨⟩
      exact ⟨fun _ => h.forwarded_checksum env.id, fun hp => absurd hp.flags hflags⟩

end Ordinary

/-! ## The second node -/

section Known

variable {env : Env} {m : Mem} {id : OpennopId} (htag : remoteID env m = .ok (some id))
  (hid : verifyNeighborInDomain env.neighbors id = true)
include htag hid

/-- **The fetcher leaves a packet of a neighbor alone**, up to the checksums. -/
theorem fetcherRecord_known (number ret : Nat) (buffer : Bool) (new st : Option Session) :
    ∃ r, fetcherRecord env number ret buffer new m st = .ok r ∧
      ∀ q, r.2.sent m = some q → q = m ∨ q = m.trimmed ∨ q = (checksum m).trimmed := by
  have hdomain := inDomain_of_verified hid
  have hhandshake : ∀ s, handshakeRecord env (some id) m s =
      .ok (saveacceleratorid m.key.largerIP id m s, none) := by
    intro s
    unfold handshakeRecord
    rw [hdomain]
    rfl
  refine fetcherRecord_cases (P := fun x => ∃ r, x = .ok r ∧
      ∀ q, r.2.sent m = some q → q = m ∨ q = m.trimmed ∨ q = (checksum m).trimmed)
    htag number ret buffer ⟨_, rfl, ?_⟩ (fun _ => ⟨_, rfl, ?_⟩) (fun s _ => ?_) (fun s _ => ?_)
    (fun s _ => ⟨_, rfl, fun q hq => ?_⟩) ?_
  · rintro q ⟨⟩
    exact .inl rfl
  · rintro q ⟨⟩
    exact .inr (.inl rfl)
  · dsimp only [synRecord]
    rw [hhandshake, ok_bind]
    refine ⟨_, rfl, ?_⟩
    rintro q ⟨⟩
    exact .inr (.inl rfl)
  · unfold synAckRecord
    rw [hhandshake, ok_bind]
    refine ⟨_, rfl, ?_⟩
    rintro q ⟨⟩
    exact .inr (.inr rfl)
  · rw [sent_dataVerdict] at hq
    cases hq
  · rintro _ s ⟨⟩ - -
    dsimp only [recoverRecord]
    rw [hdomain]
    refine ⟨_, rfl, fun q hq => ?_⟩
    cases buffer with
    | true => cases hq
    | false => cases hq

theorem workerRecord_known (hflag : getTcpOption m compressed = .ok 0) (reread : Mem)
    (st : Option Session) : ∃ r, workerRecord env reread m st = .ok r ∧ ∀ q, r.2.sent m = some q →
    q = m ∨ q = (checksum m).trimmed := by
  cases st with
  | none =>
    unfold workerRecord
    rw [htag, ok_bind]
    refine ⟨_, rfl, ?_⟩
    rintro q ⟨⟩
    exact .inl rfl
  | some s =>
    have hproc : ∃ s', processRecord env (some id) m s = .ok (s', m, true) := by
      unfold processRecord
      split
      · rw [inDomain_of_verified hid]
        dsimp only [deoptimizeRecord]
        rw [hflag, ok_bind, if_neg (by simp)]
        exact ⟨_, rfl⟩
      · exact ⟨s, rfl⟩
    obtain ⟨s', hproc⟩ := hproc
    refine ⟨_, workerRecord_of_process htag hproc, ?_⟩
    rintro q ⟨⟩
    exact .inr rfl

omit htag in
/-- With the flag, and the node for the destination's side in the session, the packet is
decompressed. -/
theorem processRecord_flagged (hflags : Rewritten m) {v : Nat}
    (hv : getTcpOption m compressed = .ok v) (hne : v ≠ 0) {s : Session}
    (hs : s.accel (sourceSide m.key.largerIP m).other = env.id) :
    processRecord env (some id) m s = (do
      let r ← tcpDecompress env.qlz true env.stateDecompress m
      if r.2 = 0 then return (saveacceleratorid m.key.largerIP id m s, r.1, false)
      else return (updateseq m.key.largerIP r.1 (saveacceleratorid m.key.largerIP id m s),
        r.1, true)) := by
  have hmay : mayDecompress env m.key m (saveacceleratorid m.key.largerIP id m s) = true := by
    refine mayDecompress_of_accel ?_
    rw [Session.accel_other_saveacceleratorid, hs]
  unfold processRecord
  rw [if_pos (show ¬ m.syn ∧ m.ack ∧ ¬ m.fin from hflags), inDomain_of_verified hid]
  dsimp only [deoptimizeRecord]
  rw [hv, ok_bind, if_pos hne, if_pos hmay]

end Known

namespace Forwarded

variable {env : Env} {id : OpennopId} {p m : Mem} {os : List Opt} (hm : Forwarded id p os m)
  (h : Ordinary p os) (hid : verifyNeighborInDomain env.neighbors id = true)
include hm h hid

/-- **The fetcher of the second node**, for a packet that is not compressed. -/
theorem fetcherRecord_intact (number ret : Nat) (buffer : Bool) (new st : Option Session) :
    ∃ r, fetcherRecord env number ret buffer new m st = .ok r ∧ ∀ q, r.2.sent m = some q →
      Intact p os q := by
  cases hm with
  | untagged hplain hord =>
    obtain ⟨r, hr, hforwards⟩ := hord.fetcherRecord_forwards env number ret buffer new st
    exact ⟨r, hr, fun q hq => (hplain.trans (hforwards q hq).plain h).intact h⟩
  | tagged hplain htag =>
    obtain ⟨r, hr, hsame⟩ := fetcherRecord_known (htag env) hid number ret buffer new st
    refine ⟨r, hr, fun q hq => ?_⟩
    rcases hsame q hq with rfl | rfl | rfl
    · exact hplain.intact h
    · rw [hplain.whole]
      exact hplain.intact h
    · exact (hplain.checksum h).intact h

/-- **A worker of the second node** that does not compress the packet itself. -/
theorem workerRecord_intact (reread : Mem) {st : Option Session} (hpack : ¬ Packs env st m) :
    ∃ r, workerRecord env reread m st = .ok r ∧ ∀ q, r.2.sent m = some q → Intact p os q := by
  cases hm with
  | untagged hplain hord =>
    obtain ⟨r, hr, hconveys⟩ := hord.workerRecord_conveys reread fun hp => absurd hp hpack
    exact ⟨r, hr, fun q hq => (hplain.trans ((hconveys q hq).forwarded hpack).plain h).intact h⟩
  | tagged hplain htag =>
    obtain ⟨r, hr, hsame⟩ := workerRecord_known (htag env) hid hplain.getTcpOption reread st
    refine ⟨r, hr, fun q hq => ?_⟩
    rcases hsame q hq with rfl | rfl
    · exact hplain.intact h
    · exact (hplain.checksum h).intact h

end Forwarded

namespace Packed

variable {env : Env} {id : OpennopId} {compress : List UInt8 → List UInt8} {p m : Mem}
  {os : List Opt} (hm : Packed id compress p os m) (h : Ordinary p os)
include hm h

/-- `tcp_decompress` gives the data back, if it does anything. -/
theorem tcpDecompress_intact (hq : Qlz.Inverts ⟨compress, env.qlz.decompress⟩) :
    ∃ q r, tcpDecompress env.qlz true env.stateDecompress m = .ok (q, r) ∧
      (r ≠ 0 → Intact p os (checksum q).trimmed) := by
  obtain ⟨D, os', hs, -⟩ := hm.stands
  have hi := h.wellFormed.ihl
  have hlen := h.length_le
  have hD := hs.shows.doff_lt
  have hihl := hs.fields.ihl hi
  cases hstate : env.stateDecompress with
  | false => exact ⟨m, 0, rfl, fun hr => absurd rfl hr⟩
  | true =>
    have hprotocol : m.protocol = ipprotoTcp := (hs.fields.ends hi).protocol.trans h.tcp
    have hdec : tcpDecompress env.qlz true true m =
      tcpDecompress ⟨compress, env.qlz.decompress⟩ true true m := rfl
    obtain ⟨q, hq', hshow, hseq, -⟩ :=
      tcpDecompress_shows hq hm.data hs.shows hprotocol (by rw [hihl]; omega) hm.short
    have hinv : env.qlz.decompress (fun k => m (m.dataOff + k)) = p.payload := by
      apply hq.inverse p.payload hm.data (by omega)
      apply read_eq
      intro j hj
      rw [Nat.zero_add, hs.shows.dataOff]
      exact of_read hs.shows.data hj
    have hfields : SameFields m q := by
      rw [hdec] at *
      refine tcpDecompress_sameFields hs.shows hm.short true true ?_ _ hq'
      dsimp only
      rw [hinv, hihl, Nat.mod_eq_of_lt (by omega)]
      omega
    have hs' := hs.trans ⟨hshow, hfields, foreign_setOption (by decide) _ _ _⟩ hi
    have hD' := hshow.doff_lt
    obtain ⟨ht, -, hseq'⟩ := (hs'.checksum hi).trimmed hi (by omega)
    refine ⟨q, 1, hdec.trans hq', fun _ => ht.intact hi (by omega) ?_⟩
    have hlt := seq_lt p
    rw [hseq', seq_checksum hshow.ihl, hseq, hm.seq]
    omega

theorem rewritten_mem : Rewritten m := by
  obtain ⟨D, os', hs, -⟩ := hm.stands
  exact (rewritten_iff (hs.fields.ends h.wellFormed.ihl).flags).2 hm.rewritten

theorem fetcherRecord_queues (hrun : env.running) (number ret : Nat) (buffer : Bool)
    (new : Option Session) (s : Session) :
    ∃ r, fetcherRecord env (number + 1) ret buffer new m (some s) = .ok r ∧ r.2.sent m = none := by
  obtain ⟨D, os', hs, hflag⟩ := hm.stands
  have hmarked : Marked env id m :=
    ⟨(hs.fields.ends h.wellFormed.ihl).protocol.trans h.tcp, hm.rewritten_mem h, hm.tag env, _,
      getTcpOption_flag hs.shows, hflag⟩
  exact ⟨_, hmarked.fetcherRecord hrun number ret buffer new s, sent_dataVerdict ..⟩

/-- **A worker of the second node**, whose session has the node for its own side. -/
theorem workerRecord_intact (hq : Qlz.Inverts ⟨compress, env.qlz.decompress⟩)
    (hid : verifyNeighborInDomain env.neighbors id = true) (reread : Mem) {s : Session}
    (hs : s.accel (sourceSide m.key.largerIP m).other = env.id) :
    ∃ r, workerRecord env reread m (some s) = .ok r ∧ ∀ q, r.2.sent m = some q → Intact p os q := by
  obtain ⟨D, os', hstands, hflag⟩ := hm.stands
  have hproc :=
    processRecord_flagged hid (hm.rewritten_mem h) (getTcpOption_flag hstands.shows) hflag hs
  obtain ⟨q, r, hdec, hintact⟩ := hm.tcpDecompress_intact h hq
  rw [hdec, ok_bind] at hproc
  dsimp only at hproc
  by_cases hr : r = 0
  · rw [if_pos hr] at hproc
    refine ⟨_, workerRecord_of_process (hm.tag env) hproc, fun q' hq' => ?_⟩
    cases hq'
  · rw [if_neg hr] at hproc
    refine ⟨_, workerRecord_of_process (hm.tag env) hproc, ?_⟩
    rintro q' ⟨⟩
    exact hintact hr

end Packed

end Opennop
