import Opennop.Node.Relied
import Opennop.Quicklz.Blocks

/-!
# What leaks on a path

The main results about the two nodes: `unleaked_of_careful`, that a compressed packet reaches the
server only decompressed while C keeps the session that A relies on, and `leaks`, that after any
handshake through both nodes the loss of C's session is enough for the next segment to reach the
server as A has compressed it. C makes its session again from the tag of that segment, and knows of
A's side only.
-/

namespace Opennop

open Mem

/-- **Nothing leaks while C keeps the session that A relies on.** On every run in which the
endpoints send ordinary packets and C removes its session only while A does not rely on it, every
packet that A has compressed and that is delivered to the server has been decompressed by C, and the
session of C records C for the server's side whenever a compressed packet waits for its worker. -/
theorem Path.unleaked_of_careful (P : Path) (hj : P.Joined) (l : List Path.Action)
    (hl : Trace.Along P.step P.Careful Net.init l) : Trace.Always P.step P.Unleaked Net.init l := by
  have hinv : Trace.Always P.step P.Inv Net.init l :=
    Trace.Always.of_step (fun n a hI hc => hI.step hj hc) Path.inv_init hl
  exact hinv.mono fun n hI => hI.unleaked hj

/-! ## The loss of the session -/

def both {α : Type} (x y : α) : Hop → α
  | .a => x
  | .c => y

section Both

variable {α : Type} (x y z : α)

@[simp] theorem both_a : both x y .a = x := rfl

@[simp] theorem both_c : both x y .c = y := rfl

@[simp] theorem update_both_a : Function.update (both x y) .a z = both z y := by
  funext h
  cases h <;> simp

@[simp] theorem update_both_c : Function.update (both x y) .c z = both x z := by
  funext h
  cases h <;> simp

end Both

theorem Net.init_eq : Net.init = ⟨both none none, both [] [], [], [], false⟩ := by
  unfold Net.init
  congr
  · funext h
    cases h <;> rfl
  · funext h
    cases h <;> rfl

/-! ### The calls -/

section Calls

variable {env : Env} {p : Mem} {os : List Opt} (number ret : Nat) (buffer : Bool)

/-- A SYN without an MSS makes a session and is sent on as it is. -/
theorem Ordinary.fetcherRecord_syn (h : Ordinary p os) (hrun : env.running)
    (hmss : firstOfKind mss os = none) (hflags : p.syn ∧ ¬ p.ack) (new : Session) :
    Opennop.fetcherRecord env (number + 1) ret buffer (some new) p none =
      .ok (some (setState .synSent
        (updateseq p.key.largerIP p (sourceisclient p.key.largerIP p new))), .accept p) := by
  unfold Opennop.fetcherRecord
  rw [if_pos hrun, if_pos ⟨h.tcp, Nat.succ_ne_zero number⟩, h.remoteID_eq env, ok_bind,
    if_pos hflags]
  dsimp only [Option.or, synRecord, Opennop.handshakeRecord, inDomain, Option.filter_none]
  rw [h.lowerMss_absent hmss]
  rfl

/-- A SYN/ACK with an MSS is tagged. -/
theorem Ordinary.fetcherRecord_synAck (h : Ordinary p os) (hrun : env.running) {x : List UInt8}
    (hmss : firstOfKind mss os = some (.opt mss x)) (hx : x.length = 2)
    (h60 : 60 < (Opt.opt mss x).value % 65536)
    (hflags : p.syn ∧ p.ack) (new : Option Session) (s : Session) :
    ∃ s' q, Opennop.fetcherRecord env (number + 1) ret buffer new p (some s) =
      .ok (some s', .accept q) ∧ Carried p q.trimmed ∧ ∀ env', remoteID env' q.trimmed =
        .ok (some env.id) := by
  obtain ⟨p', hlower, -, hcarried, htagged⟩ := h.lowerMss_tags env hmss hx h60
  refine ⟨setState .established
    (saveacceleratorid p.key.largerIP env.id p' (updateseq p.key.largerIP p s)),
    checksum p', ?_, hcarried, htagged⟩
  unfold Opennop.fetcherRecord
  rw [if_pos hrun, if_pos ⟨h.tcp, Nat.succ_ne_zero number⟩, h.remoteID_eq env, ok_bind,
    if_neg fun hsyn => hsyn.2 hflags.2]
  dsimp only
  rw [if_pos hflags]
  dsimp only [synAckRecord, Opennop.handshakeRecord, inDomain, Option.filter_none]
  rw [hlower]
  rfl

/-- A SYN/ACK with the tag of a neighbor establishes the session, which records the neighbor. -/
theorem fetcherRecord_synAck_tagged (hrun : env.running) (htcp : p.protocol = ipprotoTcp)
    (hflags : p.syn ∧ p.ack) {id : OpennopId} (htag : remoteID env p = .ok (some id))
    (hid : verifyNeighborInDomain env.neighbors id = true) (h0 : p.key.largerIP ≠ 0)
    (new : Option Session) (s : Session) :
    ∃ s' q, fetcherRecord env (number + 1) ret buffer new p (some s) = .ok (some s', .accept q) ∧
      s'.accel (sourceSide p.key.largerIP p) = id ∧ s'.state = .established := by
  refine ⟨setState .established
    (saveacceleratorid p.key.largerIP id p (updateseq p.key.largerIP p s)), checksum p, ?_, ?_, rfl⟩
  · unfold fetcherRecord
    rw [if_pos hrun, if_pos ⟨htcp, Nat.succ_ne_zero number⟩, htag, ok_bind,
      if_neg fun hsyn => hsyn.2 hflags.2]
    dsimp only
    rw [if_pos hflags]
    dsimp only [synAckRecord, handshakeRecord]
    rw [inDomain_of_verified hid]
    rfl
  · rw [Session.accel_setState, Session.accel_saveacceleratorid, if_pos ⟨h0, rfl⟩]

/-- A segment goes to the worker of its session. -/
theorem Ordinary.fetcherRecord_data (h : Ordinary p os) (hrun : env.running) (hflags : Rewritten p)
    (new : Option Session) (s : Session) :
    Opennop.fetcherRecord env (number + 1) p.totLen true new p (some s) =
      .ok (some s, .optimize s.queue p) := by
  unfold Opennop.fetcherRecord
  rw [if_pos hrun, if_pos ⟨h.tcp, Nat.succ_ne_zero number⟩, h.remoteID_eq env, ok_bind,
    if_neg fun hsyn => hflags.1 hsyn.1]
  dsimp only
  rw [if_neg fun hsyn => hflags.1 hsyn.1]
  have hwhole : p.cut p.totLen = p := h.whole
  dsimp only [dataVerdict, inDomain, Option.filter_none, if_true]
  rw [hwhole]
  rfl

/-- A compressed segment makes the session again, which records the node that has compressed it. -/
theorem Marked.fetcherRecord_recover {id : OpennopId} (h : Marked env id p) (hrun : env.running)
    (hid : verifyNeighborInDomain env.neighbors id = true) (hwhole : p.trimmed = p)
    (new : Session) :
    ∃ s', Opennop.fetcherRecord env (number + 1) p.totLen true (some new) p none =
      .ok (some s', .deoptimize s'.queue p) ∧ ∀ side, side ≠ sourceSide p.key.largerIP p →
        s'.accel side = new.accel side := by
  refine ⟨saveacceleratorid p.key.largerIP id p (setState .established new), ?_,
    fun side hside => ?_⟩
  · have hcut : p.cut p.totLen = p := hwhole
    unfold Opennop.fetcherRecord
    rw [if_pos hrun, if_pos ⟨h.tcp, Nat.succ_ne_zero number⟩, h.tag, ok_bind,
      if_neg fun hsyn => h.flags.1 hsyn.1]
    dsimp only
    rw [if_pos (show ¬ p.syn ∧ p.ack ∧ ¬ p.fin from h.flags)]
    dsimp only [recoverRecord]
    rw [inDomain_of_verified hid]
    simp only [if_true, pure_eq_ok, ok_bind, hcut]
  · rw [Session.accel_saveacceleratorid, if_neg fun h => hside h.2, Session.accel_setState]

/-- A worker whose session does not record the local node sends a compressed segment on as it is. -/
theorem Marked.workerRecord_passes {reread : Mem} {id : OpennopId} (h : Marked env id p)
    (hid : verifyNeighborInDomain env.neighbors id = true)
    (hips : p.key.smallerIP ≠ p.key.largerIP) {s : Session}
    (hs : s.accel (sourceSide p.key.largerIP p).other ≠ env.id) :
    ∃ st, Opennop.workerRecord env reread p (some s) = .ok (st, .accept (checksum p)) ∧
      ∀ v, ¬ Unpacks env (some s) p v := by
  obtain ⟨v, hv, hne⟩ := h.flag
  have hmay : ¬ mayDecompress env p.key p (saveacceleratorid p.key.largerIP id p s) = true := by
    intro hmay
    have haccel := accel_of_mayDecompress hips hmay
    rw [Session.accel_other_saveacceleratorid] at haccel
    exact hs haccel
  have hproc : processRecord env (some id) p s =
      .ok (saveacceleratorid p.key.largerIP id p s, p, true) := by
    unfold processRecord
    rw [if_pos (show ¬ p.syn ∧ p.ack ∧ ¬ p.fin from h.flags), inDomain_of_verified hid]
    dsimp only [deoptimizeRecord]
    rw [hv, ok_bind, if_pos hne, if_neg hmay]
    rfl
  refine ⟨_, workerRecord_of_process h.tag hproc, fun v hunpacks => ?_⟩
  obtain ⟨s', q, r, hs', hd, -⟩ := hunpacks
  cases hs'
  obtain ⟨remote, id', hremote, hdomain, hmay'⟩ := hd.may
  rw [h.tag, Except.ok.injEq] at hremote
  subst hremote
  rw [inDomain_of_verified hid, Option.some.injEq] at hdomain
  subst hdomain
  exact hmay hmay'

end Calls

/-! ### The run -/

/-- A compressed packet has reached the server as it was. -/
def Net.Leaked (n : Net) : Prop :=
  ∃ y ∈ n.delivered, y.packet.entry = .a ∧ y.packet.packed ∧ ¬ y.unpacked

namespace Path

variable {P : Path}

/-- What a segment has to be for A to compress it. -/
structure Compressible (P : Path) (p : Mem) : Prop where
  fromClient : P.FromEndpoint .a p
  flags : Rewritten p
  compression : (P.env .a).stateCompress ∧ (P.env .a).compression
  shorter : ((P.env .a).qlz.compress p.payload).length % 65536 < p.payload.length

/-- A compresses the segment when its session is established and has another accelerator for the
server's side. -/
theorem Compressible.packs {p : Mem} (h : P.Compressible p) (hj : P.Joined) {s : Session}
    (hstate : s.state = .established) (hz : s.accel (P.side .c) ≠ .zero)
    (hid : s.accel (P.side .c) ≠ (P.env .a).id) :
    Packs (P.env .a) (some s) p := by
  obtain ⟨os, hos⟩ := h.fromClient.ordinary
  have hkey := h.fromClient.key
  have hside := h.fromClient.side
  obtain ⟨p₁, htag, h₁, hh₁⟩ := hos.setTag (P.env .a)
  have hlen := hos.length_le
  have hsaddr := hh₁.saddr hos.wellFormed.ihl
  refine ⟨s, p₁, rfl, ⟨⟨⟨h.flags, none, hos.remoteID_eq _, rfl⟩, htag⟩, ?_⟩, h.compression,
    (hh₁.protocol hos.wellFormed.ihl).trans hos.tcp, ?_, rfl, ?_⟩
  · -- the session with the local ID for the client's side
    have h0 : p.key.largerIP ≠ 0 := by
      rw [hkey]
      exact hj.largerIP
    have hother : (sourceSide p.key.largerIP p).other = P.side .c := by
      rw [hkey, hside]
      rfl
    refine (mayCompress_iff_accel hsaddr (s.accel_source_saveacceleratorid h0 p _)).2 ?_
    rw [Session.accel_other_saveacceleratorid, hother]
    exact ⟨⟨hz, hid⟩, (state_saveacceleratorid ..).trans hstate⟩
  · have hpos := h.shorter
    rw [h₁.dataLen (by omega)]
    omega
  · rw [qlzCompress_eq h₁ (by omega), h₁.dataLen (by omega)]
    exact h.shorter

section Steps

variable {ra rc st : Option Session} {wa wc : List Waiting} {wire : List Datagram}
  {delivered : List Delivery} {f : Fetch} {p q : Mem}

theorem step_send_a (hrec : fetcherRecord (P.env .a) (f.number + 1) p.totLen f.buffer
      (f.queue.map (newSession P.key)) p ra = .ok (st, .accept q)) :
    P.step ⟨both ra rc, both wa wc, wire, delivered, false⟩ (.send .a p f) =
      ⟨both st rc, both wa wc, wire ++ [⟨.a, q.trimmed, False⟩], delivered, false⟩ := by
  simp [step, fetch, Net.settle, hrec, Verdict.copied, Verdict.sent]

theorem step_send_c (hrec : fetcherRecord (P.env .c) (f.number + 1) p.totLen f.buffer
      (f.queue.map (newSession P.key)) p rc = .ok (st, .accept q)) :
    P.step ⟨both ra rc, both wa wc, wire, delivered, false⟩ (.send .c p f) =
      ⟨both ra st, both wa wc, wire ++ [⟨.c, q.trimmed, False⟩], delivered, false⟩ := by
  simp [step, fetch, Net.settle, hrec, Verdict.copied, Verdict.sent]

theorem step_fetch_a {packed : Prop}
    (hrec : fetcherRecord (P.env .a) (f.number + 1) p.totLen f.buffer
      (f.queue.map (newSession P.key)) p ra = .ok (st, .accept q)) :
    P.step ⟨both ra rc, both wa wc, ⟨.c, p, packed⟩ :: wire, delivered, false⟩ (.fetch 0 f) =
      ⟨both st rc, both wa wc, wire, delivered ++ [⟨⟨.c, p, packed⟩, False⟩], false⟩ := by
  simp [step, fetch, Net.settle, hrec, Verdict.copied, Verdict.sent, Hop.other]

theorem step_fetch_c {packed : Prop}
    (hrec : fetcherRecord (P.env .c) (f.number + 1) p.totLen f.buffer
      (f.queue.map (newSession P.key)) p rc = .ok (st, .accept q)) :
    P.step ⟨both ra rc, both wa wc, ⟨.a, p, packed⟩ :: wire, delivered, false⟩ (.fetch 0 f) =
      ⟨both ra st, both wa wc, wire, delivered ++ [⟨⟨.a, p, packed⟩, False⟩], false⟩ := by
  simp [step, fetch, Net.settle, hrec, Verdict.copied, Verdict.sent, Hop.other]

theorem step_sweep_c : P.step ⟨both ra rc, both wa wc, wire, delivered, false⟩ (.sweep .c) =
    ⟨both ra none, both wa wc, wire, delivered, false⟩ := by
  simp [step]

theorem step_send_queue {queue : Nat}
    (hrec : fetcherRecord (P.env .a) (f.number + 1) p.totLen f.buffer
      (f.queue.map (newSession P.key)) p ra = .ok (st, .optimize queue q)) :
    P.step ⟨both ra rc, both wa wc, wire, delivered, false⟩ (.send .a p f) =
      ⟨both st rc, both (wa ++ [⟨⟨.a, p, False⟩, q⟩]) wc, wire, delivered, false⟩ := by
  simp [step, fetch, Net.settle, hrec, Verdict.copied, Verdict.sent]

theorem step_work_a {packed : Prop} {reread : Mem}
    (hrec : workerRecord (P.env .a) reread p ra = .ok (st, .accept q)) {original : Mem} :
    P.step ⟨both ra rc, both (⟨⟨.a, original, packed⟩, p⟩ :: wa) wc, wire, delivered, false⟩
      (.work .a 0 reread) =
        ⟨both st rc, both wa wc, wire ++ [⟨.a, q.trimmed, packed ∨ Packs (P.env .a) ra p⟩],
          delivered, false⟩ := by
  have htake : P.step ⟨both ra rc, both (⟨⟨.a, original, packed⟩, p⟩ :: wa) wc, wire, delivered,
    false⟩ (.work .a 0 reread) = P.work ⟨both ra rc, both wa wc, wire, delivered, false⟩ .a
      ⟨⟨.a, original, packed⟩, p⟩ reread := by
    simp [step]
  rw [htake, work]
  dsimp only [both_a]
  rw [hrec]
  simp [Net.settle, Verdict.copied, Verdict.sent]

theorem step_fetch_queue {packed : Prop} {queue : Nat}
    (hrec : fetcherRecord (P.env .c) (f.number + 1) p.totLen f.buffer
      (f.queue.map (newSession P.key)) p rc = .ok (st, .deoptimize queue q)) :
    P.step ⟨both ra rc, both wa wc, ⟨.a, p, packed⟩ :: wire, delivered, false⟩ (.fetch 0 f) =
      ⟨both ra st, both wa (wc ++ [⟨⟨.a, p, packed⟩, q⟩]), wire, delivered, false⟩ := by
  simp [step, fetch, Net.settle, hrec, Verdict.copied, Verdict.sent, Hop.other]

theorem step_work_c {packed : Prop} {reread : Mem}
    (hrec : workerRecord (P.env .c) reread p rc = .ok (st, .accept q)) {original : Mem} :
    P.step ⟨both ra rc, both wa (⟨⟨.a, original, packed⟩, p⟩ :: wc), wire, delivered, false⟩
      (.work .c 0 reread) = ⟨both ra st, both wa wc, wire,
        delivered ++ [⟨⟨.a, original, packed⟩, Unpacks (P.env .c) rc p (.accept q)⟩], false⟩ := by
  have htake : P.step ⟨both ra rc, both wa (⟨⟨.a, original, packed⟩, p⟩ :: wc), wire, delivered,
    false⟩ (.work .c 0 reread) = P.work ⟨both ra rc, both wa wc, wire, delivered, false⟩ .c
      ⟨⟨.a, original, packed⟩, p⟩ reread := by
    simp [step]
  rw [htake, work]
  dsimp only [both_c]
  rw [hrec]
  simp [Net.settle, Verdict.copied, Verdict.sent]

end Steps

def plenty : Fetch := ⟨0, true, some 0⟩

/-- **A has a session that counts on C, and C has none.** The next segment that A compresses
leaks. -/
theorem leaks_of_lost (hj : P.Joined) (hrun : (P.env .a).running)
    (hips : P.key.smallerIP ≠ P.key.largerIP) {s : Session} (hstate : s.state = .established)
    (hz : s.accel (P.side .c) ≠ .zero) (hid : s.accel (P.side .c) ≠ (P.env .a).id) {p : Mem}
    (hp : P.Compressible p) (reread : Mem) (delivered : List Delivery) :
    (Trace.run P.step ⟨both (some s) none, both [] [], [], delivered, false⟩
      [.send .a p plenty, .work .a 0 reread, .fetch 0 plenty, .work .c 0 reread]).Leaked := by
  obtain ⟨os, hos⟩ := hp.fromClient.ordinary
  have hpacks := hp.packs hj hstate hz hid
  have hfetch := hos.fetcherRecord_data 0 hrun hp.flags (some (newSession P.key 0)) s
  obtain ⟨s', q, hwork, hq, -⟩ := hos.workerRecord_rewritten (P.env .a) hp.flags reread s
  have honWay : P.OnWay ⟨.a, (checksum q).trimmed, False ∨ Packs (P.env .a) (some s) p⟩ :=
    hp.fromClient.onWay hq.carried fun _ _ =>
    ⟨hq.carried.ends.protocol.trans hos.tcp,
      (rewritten_iff hq.carried.ends.flags).2 hp.flags, hq.tagged _, hq.flagged hpacks⟩
  have hmarked := honWay.marked rfl (.inr hpacks)
  have hkey := honWay.key
  have hside := honWay.side
  obtain ⟨s₂, hrecover, haccel⟩ :=
    hmarked.fetcherRecord_recover 0 hj.running hj.neighbor honWay.whole (newSession P.key 0)
  have hlost : s₂.accel (sourceSide (checksum q).trimmed.key.largerIP (checksum q).trimmed).other ≠
      (P.env .c).id := by
    rw [haccel _ (Side.other_ne _), Session.accel_newSession]
    exact hj.id.symm
  obtain ⟨st, hpass, hnot⟩ :=
    hmarked.workerRecord_passes hj.neighbor (by rw [hkey]; exact hips) hlost
  rw [Trace.run_cons, step_send_queue hfetch, Trace.run_cons, List.nil_append, step_work_a hwork,
    Trace.run_cons, List.nil_append, step_fetch_queue hrecover, Trace.run_cons, List.nil_append,
      step_work_c hpass, Trace.run_nil]
  exact ⟨_, List.mem_append_right _ List.mem_cons_self, rfl, .inr hpacks, hnot _⟩

/-- The first two packets of a connection: a SYN without an MSS, which passes as it is, and a
SYN/ACK with an MSS, which C tags. -/
structure Opens (P : Path) (syn synAck : Mem) : Prop where
  fromClient : P.FromEndpoint .a syn
  synFlags : syn.syn ∧ ¬ syn.ack
  synOptions : ∃ os, Ordinary syn os ∧ firstOfKind mss os = none
  fromServer : P.FromEndpoint .c synAck
  synAckFlags : synAck.syn ∧ synAck.ack
  synAckOptions : ∃ os x, Ordinary synAck os ∧ firstOfKind mss os = some (.opt mss x) ∧
    x.length = 2 ∧ 60 < (Opt.opt mss x).value % 65536

theorem ips_ne {p q : Mem} (hp : P.FromEndpoint .a p) (hq : P.FromEndpoint .c q) :
    P.key.smallerIP ≠ P.key.largerIP := by
  intro hips
  have hlarger : ∀ {h : Hop} {r : Mem}, P.FromEndpoint h r → P.side h = .larger := by
    intro h r hr
    rw [← hr.side, sourceSide, if_pos]
    rcases saddr_eq_or r with hl | hl
    · rw [hl, hr.key]
    · rw [hl, hr.key, hips]
  exact side_ne ((hlarger hq).trans (hlarger hp).symm)

/-- **The loss of C's session leaks.** After any handshake that C has tagged, it takes the removal
of C's session and one more segment. -/
theorem leaks (hj : P.Joined) (hrun : (P.env .a).running)
    (hup : verifyNeighborInDomain (P.env .a).neighbors (P.env .c).id = true)
    (hids : (P.env .c).id ≠ (P.env .a).id)
    {syn synAck data : Mem} (ho : P.Opens syn synAck) (hdata : P.Compressible data) (reread : Mem) :
    (Trace.run P.step Net.init [.send .a syn plenty, .fetch 0 plenty, .send .c synAck plenty,
    .fetch 0 plenty, .sweep .c, .send .a data plenty, .work .a 0 reread, .fetch 0 plenty,
      .work .c 0 reread]).Leaked := by
  obtain ⟨os, hos, hmss⟩ := ho.synOptions
  obtain ⟨os', x, hos', hmss', hx, h60⟩ := ho.synAckOptions
  have hsynA := hos.fetcherRecord_syn 0 syn.totLen true hrun hmss ho.synFlags (newSession P.key 0)
  have hsynC :=
    hos.fetcherRecord_syn 0 syn.totLen true hj.running hmss ho.synFlags (newSession P.key 0)
  generalize setState .synSent (updateseq syn.key.largerIP syn (sourceisclient syn.key.largerIP syn
    (newSession P.key 0))) = s₁ at hsynA hsynC
  obtain ⟨s₂, q, hsynAckC, hcarried, htagged⟩ :=
    hos'.fetcherRecord_synAck 0 synAck.totLen true hj.running hmss' hx h60
    ho.synAckFlags (some (newSession P.key 0)) s₁
  have honWay : P.OnWay ⟨.c, q.trimmed, False⟩ := ho.fromServer.onWay hcarried fun hh => nomatch hh
  have hflags : q.trimmed.syn ∧ q.trimmed.ack := by
    have hflags := ho.synAckFlags
    unfold Mem.syn Mem.ack at hflags ⊢
    rwa [hcarried.ends.flags]
  have hlarger : q.trimmed.key.largerIP ≠ 0 := by
    rw [honWay.key]
    exact hj.largerIP
  obtain ⟨s₃, q', hsynAckA, haccel, hstate⟩ :=
    fetcherRecord_synAck_tagged 0 q.trimmed.totLen true hrun
    (hcarried.ends.protocol.trans hos'.tcp) hflags (htagged (P.env .a)) hup hlarger
      (some (newSession P.key 0)) s₁
  rw [honWay.key, honWay.side] at haccel
  rw [Net.init_eq, Trace.run_cons, step_send_a hsynA, hos.whole, Trace.run_cons, List.nil_append,
    step_fetch_c hsynC, Trace.run_cons, step_send_c hsynAckC, Trace.run_cons, List.nil_append,
      step_fetch_a hsynAckA, Trace.run_cons,
    step_sweep_c]
  refine leaks_of_lost hj hrun (ips_ne ho.fromClient ho.fromServer) hstate ?_ ?_ hdata reread _
  · rw [haccel]
    exact hj.id
  · rw [haccel]
    exact hids

end Path

/-! ### A path -/

/-- A node that compresses with QuickLZ and has one neighbor, in state UP. -/
def pathEnv (id neighbor : OpennopId) : Env where
  running := true
  id := id
  neighbors := [{ neighborIP := 1, state := .up, id := neighbor, key := .empty }]
  gap := 0
  compression := true
  stateCompress := true
  stateDecompress := true
  qlz := Quicklz.quicklz .x86 .x86

def clientSyn : Mem :=
  Mem.ofList [0x45, 0, 0, 40, 0, 0, 0, 0, 64, 6, 0, 0, 10, 0, 0, 1, 10, 0, 0, 2,
    0x30, 0x39, 0, 80, 0, 0, 0, 1, 0, 0, 0, 0, 0x50, 2, 0xff, 0xff, 0, 0, 0, 0]

def serverSynAck : Mem :=
  Mem.ofList [0x45, 0, 0, 44, 0, 0, 0, 0, 64, 6, 0, 0, 10, 0, 0, 2, 10, 0, 0, 1,
    0, 80, 0x30, 0x39, 0, 0, 0, 1, 0, 0, 0, 0, 0x60, 18, 0xff, 0xff, 0, 0, 0, 0, 2, 4, 5, 180]

/-- The nodes 1.1.1.1 and 2.2.2.2, between the client 10.0.0.1 and the server 10.0.0.2. -/
def twoNodes : Path where
  env := both (pathEnv ⟨1, 1, 1, 1⟩ ⟨2, 2, 2, 2⟩) (pathEnv ⟨2, 2, 2, 2⟩ ⟨1, 1, 1, 1⟩)
  key := clientSyn.key
  client := .smaller

theorem trimmed_ofList {l : List UInt8} (h : l.length ≤ (ofList l).totLen) :
    (ofList l).trimmed = ofList l := by
  funext i
  unfold Mem.trimmed cut
  split
  · rfl
  · unfold ofList
    rw [List.getD_eq_getElem?_getD, List.getElem?_eq_none (by omega)]
    rfl

theorem twoNodes_joined : twoNodes.Joined := ⟨by decide +kernel, rfl, by decide, by decide⟩

theorem ordinary_clientSyn : Ordinary clientSyn [] :=
  ⟨by decide, by decide, rfl, rfl, by decide, by decide, by decide, trimmed_ofList (by decide)⟩

theorem ordinary_serverSynAck : Ordinary serverSynAck [.opt mss [5, 180]] :=
  ⟨by decide, by decide, rfl, rfl, by decide, by decide, by decide, trimmed_ofList (by decide)⟩

theorem ordinary_evenSegment : Ordinary evenSegment [] :=
  ⟨wellFormed_evenSegment, by decide, rfl, rfl, by decide, by decide, by decide,
    trimmed_ofList (by decide)⟩

theorem fromEndpoint_clientSyn : twoNodes.FromEndpoint .a clientSyn :=
  ⟨by decide +kernel, by decide +kernel, [], ordinary_clientSyn⟩

theorem fromEndpoint_serverSynAck : twoNodes.FromEndpoint .c serverSynAck :=
  ⟨by decide +kernel, by decide +kernel, _, ordinary_serverSynAck⟩

theorem twoNodes_opens : twoNodes.Opens clientSyn serverSynAck where
  fromClient := fromEndpoint_clientSyn
  synFlags := by decide
  synOptions := ⟨[], ordinary_clientSyn, rfl⟩
  fromServer := fromEndpoint_serverSynAck
  synAckFlags := by decide
  synAckOptions := ⟨_, [5, 180], ordinary_serverSynAck, rfl, rfl, by decide +kernel⟩

theorem twoNodes_compressible : twoNodes.Compressible evenSegment where
  fromClient := ⟨by decide +kernel, by decide +kernel, [], ordinary_evenSegment⟩
  flags := ⟨by decide, by decide, by decide⟩
  compression := ⟨rfl, rfl⟩
  shorter := by
    have hqlz : (twoNodes.env .a).qlz = Quicklz.quicklz .x86 .x86 := rfl
    rw [hqlz, compress_evenSegment]
    decide

/-- A handshake and a segment that A compresses, up to the queue of C's worker. -/
theorem unleaked_twoNodes : twoNodes.Joined ∧ Trace.Always twoNodes.step twoNodes.Unleaked Net.init
    [.send .a clientSyn Path.plenty, .fetch 0 Path.plenty, .send .c serverSynAck Path.plenty,
      .fetch 0 Path.plenty, .send .a evenSegment Path.plenty, .work .a 0 clientSyn,
      .fetch 0 Path.plenty] :=
  ⟨twoNodes_joined, twoNodes.unleaked_of_careful twoNodes_joined _
    ⟨twoNodes_opens.fromClient, trivial, twoNodes_opens.fromServer, trivial,
      twoNodes_compressible.fromClient, trivial, trivial, trivial⟩⟩

/-- The same, with the session of C removed after the handshake. -/
theorem not_unleaked_swept : twoNodes.Joined ∧
    verifyNeighborInDomain (twoNodes.env .a).neighbors (twoNodes.env .c).id = true ∧
    twoNodes.FromEndpoint .a clientSyn ∧ twoNodes.FromEndpoint .c serverSynAck ∧
      twoNodes.FromEndpoint .a evenSegment ∧
    ¬ Trace.Always twoNodes.step twoNodes.Unleaked Net.init
      [.send .a clientSyn Path.plenty, .fetch 0 Path.plenty, .send .c serverSynAck Path.plenty,
        .fetch 0 Path.plenty, .sweep .c, .send .a evenSegment Path.plenty, .work .a 0 clientSyn,
        .fetch 0 Path.plenty, .work .c 0 clientSyn] := by
  have hup : verifyNeighborInDomain (twoNodes.env .a).neighbors (twoNodes.env .c).id =
    true := by decide
  refine ⟨twoNodes_joined, hup, twoNodes_opens.fromClient, twoNodes_opens.fromServer,
    twoNodes_compressible.fromClient, fun h => ?_⟩
  obtain ⟨y, hy, hentry, hpacked, hnot⟩ :=
    Path.leaks twoNodes_joined rfl hup (by decide) twoNodes_opens
    twoNodes_compressible clientSyn
  exact hnot (h.last.delivered y hy hentry hpacked)

end Opennop
