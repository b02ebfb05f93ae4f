import Opennop.Node.Announce
import Opennop.Node.Closing

/-!
# What a node learns from a packet

The accelerators of a session change in `saveacceleratorid` only, and only for the side that the
packet at hand comes from: the session then records the local node, or the neighbor that the packet
announces. A session goes away with a reset, and with a FIN while it is closing. Both hold for the
fetcher and for the workers, whatever the packet is.
-/

namespace Opennop

open Mem

/-- The accelerator that is recorded for a side; none without a session. -/
def accelAt (st : Option Session) (side : Side) : OpennopId :=
  (st.map (Session.accel · side)).getD .zero

@[simp] theorem accelAt_none (side : Side) : accelAt none side = .zero := rfl

@[simp] theorem accelAt_some (s : Session) (side : Side) : accelAt (some s) side = s.accel side :=
  rfl

theorem exists_of_accelAt {st : Option Session} {side : Side} (h : accelAt st side ≠ .zero) :
    ∃ s, st = some s ∧ s.accel side = accelAt st side := by
  cases st with
  | none => exact absurd rfl h
  | some s => exact ⟨s, rfl, rfl⟩

/-- The packet announces a neighbor in state UP. -/
def Announces (env : Env) (p : Mem) : Prop :=
  ∃ remote id, remoteID env p = .ok remote ∧ inDomain env remote = some id

/-- What may become of the recorded accelerators when a node handles `p`. -/
structure Learns (env : Env) (p : Mem) (before after : Side → OpennopId) : Prop where
  other : ∀ side, side ≠ sourceSide p.key.largerIP p → after side = before side
  source : after (sourceSide p.key.largerIP p) = before (sourceSide p.key.largerIP p) ∨
    after (sourceSide p.key.largerIP p) = env.id ∨ Announces env p

namespace Learns

variable {env : Env} {p : Mem}

theorem refl (accel : Side → OpennopId) : Learns env p accel accel := ⟨fun _ _ => rfl, .inl rfl⟩

theorem save {p' : Mem} (hsaddr : p'.saddr = p.saddr) {id : OpennopId}
    (hid : id = env.id ∨ Announces env p) (s : Session) :
    Learns env p s.accel (saveacceleratorid p.key.largerIP id p' s).accel := by
  have hside : sourceSide p.key.largerIP p' = sourceSide p.key.largerIP p := by
    unfold sourceSide
    rw [hsaddr]
  refine ⟨fun side hne => ?_, ?_⟩
  · rw [Session.accel_saveacceleratorid, hside, if_neg fun h => hne h.2]
  · rw [Session.accel_saveacceleratorid, hside]
    split
    · exact .inr hid
    · exact .inl rfl

theorem congr {before before' after after' : Side → OpennopId} (h : Learns env p before after)
    (hb : ∀ side, before' side = before side) (ha : ∀ side, after' side = after side) :
    Learns env p before' after' := by
  obtain rfl : before' = before := funext hb
  obtain rfl : after' = after := funext ha
  exact h

end Learns

/-! ## The fetcher -/

section Fetcher

variable {env : Env} {p : Mem}

theorem lowerMss_saddr (hi : 5 ≤ p.ihl) :
    Post (lowerMss env p) fun o => ∀ p', o = some p' → p'.saddr = p.saddr := by
  unfold lowerMss
  refine Post.bind (P := fun _ => True) (fun _ _ => trivial) fun v _ => ?_
  dsimp only
  split
  · refine Post.bind (setTcpOption_longer hi mss (show 4 < 256 by decide) _) ?_
    rintro ⟨p₁, r⟩ ⟨c, hlonger, -, -⟩
    have hi₁ : 5 ≤ p₁.ihl := by
      rw [hlonger.ip.ihl hi]
      exact hi
    refine Post.bind (setNodHeaderData_sameIp env.gap p₁ hi₁ (by decide) (by simp))
      fun p₂ hp₂ => Post.ok ?_
    rintro p' ⟨⟩
    rw [hp₂.saddr hi₁, hlonger.ip.saddr hi]
  · exact Post.ok fun p' hp' => nomatch hp'

theorem handshakeRecord_learns (hi : 5 ≤ p.ihl) {remote : Option OpennopId}
    (hr : remoteID env p = .ok remote) (s : Session) :
    Post (handshakeRecord env remote p s) fun r => Learns env p s.accel r.1.accel := by
  unfold handshakeRecord
  split
  · refine Post.bind (lowerMss_saddr hi) fun o ho => ?_
    cases o with
    | none => exact Post.ok (.refl _)
    | some p' => exact Post.ok (.save (ho p' rfl) (.inl rfl) s)
  · next id hdomain => exact Post.ok (.save rfl (.inr ⟨remote, id, hr, hdomain⟩) s)

/-- The copy of a packet that the verdict passes to a worker. -/
def Verdict.copied : Verdict → Option Mem
  | .optimize _ p => some p
  | .deoptimize _ p => some p
  | _ => none

theorem copied_dataVerdict (remote : Option OpennopId) (ret : Nat) (buffer : Bool) (queue : Nat)
    {q : Mem} (h : (dataVerdict env remote ret buffer p queue).copied = some q) :
    q = p.cut ret := by
  unfold dataVerdict at h
  split at h
  · split at h
    · exact (Option.some.inj h).symm
    · exact (Option.some.inj h).symm
  · exact nomatch h

/-- The tag of a packet that announces a node is there already. -/
theorem setTag_of_remoteID {remote : OpennopId} (hr : remoteID env p = .ok (some remote)) :
    setTag env p = .ok p := by
  unfold remoteID at hr
  obtain ⟨⟨l, data⟩, hget, hdata⟩ := bind_eq_ok.1 hr
  cases data with
  | none => exact nomatch hdata
  | some a => exact setNodHeaderData_filled hget _

theorem recoverRecord_learns {remote : OpennopId} (hr : remoteID env p = .ok (some remote))
    (ret : Nat) (buffer : Bool) (new : Option Session) :
    Post (recoverRecord env remote ret buffer p new) fun r =>
      (∀ s', r.1 = some s' → Learns env p (accelAt new) s'.accel) ∧
      ∀ q, r.2.copied = some q → q = p.cut ret := by
  unfold recoverRecord
  cases new with
  | none => exact Post.ok ⟨fun s' hs' => (nomatch hs'), fun q hq => (nomatch hq)⟩
  | some s =>
    have hstate : ∀ side, s.accel side = (setState .established s).accel side := fun side =>
      (s.accel_setState side .established).symm
    -- in both cases the packet is queued as it came
    have hdone : ∀ s₁ : Session, Learns env p s.accel s₁.accel →
        (∀ s', some s₁ = some s' → Learns env p (accelAt (some s)) s'.accel) ∧
          ∀ q, (if buffer = true then Verdict.deoptimize s₁.queue (p.cut ret) else .stuck).copied =
            some q → q = p.cut ret := by
      intro s₁ hlearns
      refine ⟨?_, fun q hq => ?_⟩
      · rintro s' ⟨⟩
        exact hlearns
      · cases buffer with
        | true => exact (Option.some.inj hq).symm
        | false => exact nomatch hq
    dsimp only
    split
    · next id hdomain =>
      exact Post.ok
        (hdone _ ((Learns.save rfl (.inr ⟨_, id, hr, hdomain⟩) _).congr hstate fun _ => rfl))
    · rw [setTag_of_remoteID hr]
      exact Post.ok (hdone _ ((Learns.save rfl (.inl rfl) _).congr hstate fun _ => rfl))

theorem synRecord_learns (hi : 5 ≤ p.ihl) {remote : Option OpennopId}
    (hr : remoteID env p = .ok remote) (st : Option Session) :
    Post (synRecord env remote p st) fun r =>
      (∀ s', r.1 = some s' → Learns env p (accelAt st) s'.accel) ∧ (r.1 = none → st = none) ∧
        r.2.copied = none := by
  unfold synRecord
  cases st with
  | none => exact Post.ok ⟨fun s' hs' => (nomatch hs'), fun _ => rfl, rfl⟩
  | some s =>
    refine Post.bind (handshakeRecord_learns hi hr _) fun r hlearns =>
      Post.ok ⟨?_, fun h => (nomatch h), rfl⟩
    rintro s' ⟨⟩
    exact hlearns.congr (fun side => by simp) fun side => Session.accel_setState _ side _

theorem synAckRecord_learns (hi : 5 ≤ p.ihl) {remote : Option OpennopId}
    (hr : remoteID env p = .ok remote) (s : Session) : Post (synAckRecord env remote p s) fun r =>
      (∀ s', r.1 = some s' → Learns env p s.accel s'.accel) ∧ r.1 ≠ none ∧ r.2.copied = none := by
  unfold synAckRecord
  refine Post.bind (handshakeRecord_learns hi hr _) fun r hlearns =>
    Post.ok ⟨?_, fun h => (nomatch h), rfl⟩
  rintro s' ⟨⟩
  exact hlearns.congr (fun side => by simp) fun side => Session.accel_setState _ side _

/-- **What the fetcher learns from a packet**, and what it copies for a worker. -/
theorem fetcherRecord_learns (hi : 5 ≤ p.ihl) (id ret : Nat) (buffer : Bool) {new : Option Session}
    (hnew : ∀ side, accelAt new side = .zero) (st : Option Session) :
    Post (fetcherRecord env id ret buffer new p st) fun r =>
      (∀ s', r.1 = some s' → Learns env p (accelAt st) s'.accel) ∧ (r.1 = none → st = none) ∧
        ∀ q, r.2.copied = some q → q = p.cut ret := by
  have hsame : ∀ s', st = some s' → Learns env p (accelAt st) s'.accel := by
    rintro s' rfl
    exact .refl _
  cases hr : remoteID env p with
  | error e =>
    unfold fetcherRecord
    rw [hr]
    split
    · split
      · exact Post.error
      · exact Post.ok ⟨hsame, fun h => h, nofun⟩
    · exact Post.ok ⟨hsame, fun h => h, nofun⟩
  | ok remote =>
    refine fetcherRecord_cases (P := (Post · fun r =>
        (∀ s', r.1 = some s' → Learns env p (accelAt st) s'.accel) ∧ (r.1 = none → st = none) ∧
          ∀ q, r.2.copied = some q → q = p.cut ret))
      hr id ret buffer (Post.ok ⟨hsame, fun h => h, nofun⟩)
      (fun h => Post.ok ⟨nofun, fun _ => Option.eq_none_iff_forall_ne_some.2 h, nofun⟩)
      (fun s hs => ?_) ?_ ?_ ?_
    · refine (synRecord_learns hi hr (some s)).mono fun r hlearns =>
        ⟨fun s' hs' => (hlearns.1 s' hs').congr (fun side => ?_) fun _ => rfl,
          fun h => absurd (hlearns.2.1 h) nofun, fun q hq => ?_⟩
      · cases st with
        | none =>
          rw [← hs]
          exact (hnew side).symm
        | some s => exact congrArg (accelAt · side) hs
      · rw [hlearns.2.2] at hq
        cases hq
    · rintro s rfl
      refine (synAckRecord_learns hi hr s).mono fun r hlearns =>
        ⟨hlearns.1, fun h => absurd h hlearns.2.1, fun q hq => ?_⟩
      rw [hlearns.2.2] at hq
      cases hq
    · rintro s rfl
      exact Post.ok ⟨hsame, nofun, fun q hq => copied_dataVerdict _ _ _ _ hq⟩
    · rintro remote s rfl rfl rfl
      refine (recoverRecord_learns hr ret buffer (some s)).mono fun r hlearns =>
        ⟨fun s' hs' => ?_, fun _ => rfl, hlearns.2⟩
      exact (hlearns.1 s' hs').congr (fun side => (hnew side).symm) fun _ => rfl

end Fetcher

/-! ## The workers -/

section Worker

variable {env : Env} {p : Mem}

theorem optimizeRecord_learns (s : Session) :
    Post (optimizeRecord env p s) fun r => Learns env p s.accel r.1.accel := by
  have hsave : Learns env p s.accel (saveacceleratorid p.key.largerIP env.id p s).accel :=
    .save rfl (.inl rfl) s
  unfold optimizeRecord
  refine Post.bind (P := fun _ => True) (fun _ _ => trivial) fun p₁ _ => ?_
  have hafter := hsave.congr (fun _ => rfl) fun side => Session.accel_updateseq
    (saveacceleratorid p.key.largerIP env.id p s) side p.key.largerIP p₁
  split
  · exact Post.bind (P := fun _ => True) (fun _ _ => trivial) fun r _ => Post.ok hafter
  · exact Post.ok hafter

theorem deoptimizeRecord_learns {id : OpennopId} (hid : Announces env p) (s : Session) :
    Post (deoptimizeRecord env id p s) fun r => Learns env p s.accel r.1.accel := by
  have hsave : Learns env p s.accel (saveacceleratorid p.key.largerIP id p s).accel :=
    .save rfl (.inr hid) s
  have hafter : ∀ p₁ : Mem, Learns env p s.accel
      (updateseq p.key.largerIP p₁ (saveacceleratorid p.key.largerIP id p s)).accel := fun p₁ =>
    hsave.congr (fun _ => rfl) fun side => Session.accel_updateseq _ side _ _
  unfold deoptimizeRecord
  refine Post.bind (P := fun _ => True) (fun _ _ => trivial) fun flag _ => ?_
  split
  · split
    · refine Post.bind (P := fun _ => True) (fun _ _ => trivial) fun r _ => ?_
      obtain ⟨p₁, result⟩ := r
      dsimp only
      split
      · exact Post.ok hsave
      · exact Post.ok (hafter p₁)
    · exact Post.ok hsave
  · exact Post.ok (hafter p)

theorem processRecord_learns {remote : Option OpennopId} (hr : remoteID env p = .ok remote)
    (s : Session) :
    Post (processRecord env remote p s) fun r => Learns env p s.accel r.1.accel := by
  unfold processRecord
  split
  · split
    · exact Post.bind (optimizeRecord_learns s) fun r hlearns => Post.ok hlearns
    · next id hdomain => exact deoptimizeRecord_learns ⟨remote, id, hr, hdomain⟩ s
  · exact Post.ok (.refl _)

/-- A packet with these flags ends the session. -/
def Closes (p : Mem) (s : Session) : Prop := p.rst = true ∨ p.fin = true ∧ s.state = .closing

theorem endRecord_eq_none {p : Mem} {s : Session} : endRecord p s = none ↔ Closes p s := by
  unfold endRecord Closes
  cases p.rst with
  | true => simp
  | false =>
    cases p.fin with
    | false => simp
    | true => cases hs : s.state <;> simp

/-- The flags that a worker reads after the packet `p` end the session: those of the packet, or
those of its buffer after it was returned. -/
def EndsSession (env : Env) (reread p : Mem) (s : Session) : Prop :=
  Closes p s ∨ GivenBack env p ∧ Closes reread s

/-- **What a worker learns from a packet**, and when it ends the session. -/
theorem workerRecord_learns (hd : 5 ≤ p.doff) (reread : Mem) (st : Option Session) :
    Post (workerRecord env reread p st) fun r =>
      (∀ s', r.1 = some s' → Learns env p (accelAt st) s'.accel) ∧
      (r.1 = none → ∀ s, st = some s → EndsSession env reread p s) ∧ r.2.copied = none := by
  unfold workerRecord
  refine Post.bind (P := fun remote => remoteID env p = .ok remote) (fun _ h => h)
    fun remote hr => ?_
  cases st with
  | none => exact Post.ok ⟨fun s' hs' => (nomatch hs'), fun _ s hs => (nomatch hs), rfl⟩
  | some s =>
    have hboth : Post (processRecord env remote p s) fun r => Learns env p s.accel r.1.accel ∧
        (r.1.state = s.state ∧ r.2.1.flags = p.flags) ∧
          (r.2.2 = false → GivenBack env p) := fun r h =>
      ⟨processRecord_learns hr s r h, processRecord_steady hd remote r h,
        processRecord_kept remote r h⟩
    refine Post.bind hboth ?_
    rintro ⟨s₁, p₁, kept⟩ ⟨hlearns, ⟨hstate, hflags⟩, hback⟩
    dsimp only at hlearns hstate hflags hback ⊢
    refine Post.ok ⟨fun s' hs' => ?_, fun hnone s₂ hs₂ => ?_, by cases kept <;> rfl⟩
    · exact hlearns.congr (fun _ => rfl) (accel_endRecord hs')
    · cases hs₂
      have hcloses := endRecord_eq_none.1 hnone
      unfold Closes at hcloses
      rw [hstate] at hcloses
      cases kept with
      | true =>
        unfold EndsSession Closes Mem.rst Mem.fin
        rw [← hflags]
        exact .inl hcloses
      | false => exact .inr ⟨hback rfl, hcloses⟩

end Worker

end Opennop
