import Opennop.Node.Path

/-!
# Compressed packets on a path

A compresses for C when its session records another accelerator on the server's side. It has learned
of it from a packet that C has tagged, and C has then recorded itself in the session it had at that
time. C decompresses when its own session still says so. So nothing leaks to the server as long as C
keeps its session while A relies on it, which it does from the time that a packet which tells A is
on its way until the last compressed packet has passed C. Nothing in the program takes care of that:
resets, FINs and the sweep remove the session of one node alone.
-/

namespace Opennop

open Mem

theorem rewritten_iff {p q : Mem} (h : q.flags = p.flags) : Rewritten q ↔ Rewritten p := by
  unfold Rewritten Mem.syn Mem.ack Mem.fin
  rw [h]

theorem Packs.flags {env : Env} {st : Option Session} {p : Mem} (h : Packs env st p) :
    Rewritten p := by
  obtain ⟨s, q, -, hc, -⟩ := h
  exact hc.flags

/-- A packet is compressed only if the session has another accelerator for the destination. -/
theorem Compresses.accel_other {env : Env} {s : Session} {p q : Mem} (h : Compresses env s p q)
    (hi : 5 ≤ p.ihl) (h0 : p.key.largerIP ≠ 0) :
    s.accel (sourceSide p.key.largerIP p).other ≠ .zero ∧
      s.accel (sourceSide p.key.largerIP p).other ≠ env.id := by
  have hsaddr : q.saddr = p.saddr :=
    (setNodHeaderData_sameIp env.gap p hi (by decide) (by simp) q h.tag).saddr hi
  have hother := Session.accel_other_saveacceleratorid s p.key.largerIP p env.id
  rw [← hother]
  exact ((mayCompress_iff_accel hsaddr (s.accel_source_saveacceleratorid h0 p env.id)).1 h.may).1

namespace Path

variable (P : Path)

/-- A counts on C to decompress, or is about to. -/
inductive Relied (n : Net) : Prop where
  /-- A has recorded another accelerator for the server's side. -/
  | recorded : accelAt (n.record .a) (P.side .c) ≠ .zero →
    accelAt (n.record .a) (P.side .c) ≠ (P.env .a).id → Relied n
  /-- A packet that tells A of a neighbor on the server's side is between the nodes. -/
  | announcing {x : Datagram} : x ∈ n.wire → x.entry = .c → Announces (P.env .a) x.mem → Relied n
  /-- Such a packet waits for a worker of A. -/
  | announced {w : Waiting} : w ∈ n.waiting .a → w.packet.entry = .c →
    Announces (P.env .a) w.copy → Relied n
  /-- A packet that A has compressed is between the nodes. -/
  | travelling {x : Datagram} : x ∈ n.wire → x.entry = .a → x.packed → Relied n
  /-- Such a packet waits for a worker of C. -/
  | arrived {w : Waiting} : w ∈ n.waiting .c → w.packet.entry = .a → w.packet.packed → Relied n

/-- An ordinary packet of the connection, from the endpoint next to the node `entry`. -/
structure FromEndpoint (entry : Hop) (p : Mem) : Prop where
  key : p.key = P.key
  side : sourceSide P.key.largerIP p = P.side entry
  ordinary : ∃ os, Ordinary p os

/-- The endpoints send ordinary packets. C does not lose its session while A relies on it, and the
packet that ends it, if it is one of the server, is not tagged in the same pass. -/
def Careful (n : Net) : Action → Prop
  | .send entry p _ => P.FromEndpoint entry p
  | .work .c i reread => ∀ w s, (n.waiting .c)[i]? = some w → n.record .c = some s →
    EndsSession (P.env .c) reread w.copy s → ¬ P.Relied n ∧
      (w.packet.entry = .c → ¬ Rewritten w.copy)
  | .sweep .c => ¬ P.Relied n
  | _ => True

/-- C is running, has an ID, and has A for a neighbor in state UP. -/
structure Joined : Prop where
  largerIP : P.key.largerIP ≠ 0
  running : (P.env .c).running
  id : (P.env .c).id ≠ .zero
  neighbor : verifyNeighborInDomain (P.env .c).neighbors (P.env .a).id = true

/-- No compressed packet has got to the server, and for every one that waits for a worker of C the
session records C on the server's side. -/
structure Unleaked (n : Net) : Prop where
  delivered : ∀ y ∈ n.delivered, y.packet.entry = .a → y.packet.packed → y.unpacked
  recorded : ∀ w ∈ n.waiting .c, w.packet.entry = .a → w.packet.packed →
    ∃ s, n.record .c = some s ∧ s.accel (P.side .c) = (P.env .c).id

/-! ## The invariant -/

structure OnWay (x : Datagram) : Prop where
  key : x.mem.key = P.key
  side : sourceSide P.key.largerIP x.mem = P.side x.entry
  ihl : 5 ≤ x.mem.ihl
  doff : 5 ≤ x.mem.doff
  whole : x.mem.trimmed = x.mem
  marked : x.entry = .a → x.packed → Marked (P.env .c) (P.env .a).id x.mem

structure Inv (n : Net) : Prop where
  wire : ∀ x ∈ n.wire, P.OnWay x
  waiting : ∀ h, ∀ w ∈ n.waiting h, w.copy = w.packet.mem ∧ P.OnWay w.packet ∧
    (h = w.packet.entry → P.FromEndpoint h w.packet.mem ∧ ¬ w.packet.packed)
  backed : P.Relied n → accelAt (n.record .c) (P.side .c) = (P.env .c).id
  delivered : ∀ y ∈ n.delivered, y.packet.entry = .a → y.packet.packed → y.unpacked

variable {P} {n n₀ : Net}

theorem side_ne : P.side .c ≠ P.side .a := Side.other_ne P.client

/-- While A relies on C, the session of C records C on the server's side. -/
theorem Inv.session_of_relied (h : P.Inv n) (hj : P.Joined) (hr : P.Relied n) :
    ∃ s, n.record .c = some s ∧ s.accel (P.side .c) = (P.env .c).id := by
  have hbacked := h.backed hr
  have hz : accelAt (n.record .c) (P.side .c) ≠ .zero := by
    rw [hbacked]
    exact hj.id
  obtain ⟨s, hs, haccel⟩ := exists_of_accelAt hz
  exact ⟨s, hs, haccel.trans hbacked⟩

theorem Inv.unleaked (h : P.Inv n) (hj : P.Joined) : P.Unleaked n where
  delivered := h.delivered
  recorded _ hw hentry hpacked := h.session_of_relied hj (.arrived hw hentry hpacked)

theorem inv_init : P.Inv Net.init := by
  refine ⟨fun x hx => (nomatch hx), fun h w hw => (nomatch hw), fun hr => ?_,
    fun y hy => (nomatch hy)⟩
  cases hr with
  | recorded hz _ => exact absurd rfl hz
  | announcing hx => exact nomatch hx
  | announced hw => exact nomatch hw
  | travelling hx => exact nomatch hx
  | arrived hw => exact nomatch hw

/-- `n₀` is `n` without some of the packets. -/
structure Lighter (n₀ n : Net) : Prop where
  record : n₀.record = n.record
  waiting : ∀ h, ∀ w ∈ n₀.waiting h, w ∈ n.waiting h
  wire : ∀ x ∈ n₀.wire, x ∈ n.wire
  delivered : n₀.delivered = n.delivered

theorem Relied.lighter (hle : Lighter n₀ n) (h : P.Relied n₀) : P.Relied n := by
  cases h with
  | recorded hz hid =>
    rw [hle.record] at hz hid
    exact .recorded hz hid
  | announcing hx hentry htold => exact .announcing (hle.wire _ hx) hentry htold
  | announced hw hentry htold => exact .announced (hle.waiting _ _ hw) hentry htold
  | travelling hx hentry hpacked => exact .travelling (hle.wire _ hx) hentry hpacked
  | arrived hw hentry hpacked => exact .arrived (hle.waiting _ _ hw) hentry hpacked

theorem Inv.lighter (h : P.Inv n) (hle : Lighter n₀ n) : P.Inv n₀ where
  wire x hx := h.wire x (hle.wire x hx)
  waiting hop w hw := h.waiting hop w (hle.waiting hop w hw)
  backed hr := by
    rw [hle.record]
    exact h.backed (hr.lighter hle)
  delivered := by
    rw [hle.delivered]
    exact h.delivered

/-! ## One packet at one node -/

/-- The packet `x` is at hand at the node `h`. -/
structure AtHand (P : Path) (n : Net) (h : Hop) (x : Datagram) : Prop where
  onWay : P.OnWay x
  first : h = x.entry → P.FromEndpoint h x.mem ∧ ¬ x.packed
  second : h ≠ x.entry → x ∈ n.wire ∨ ∃ w ∈ n.waiting h, w.packet = x ∧ w.copy = x.mem

/-- What the fetcher and the workers of a node have in common. -/
structure Passed (P : Path) (n : Net) (h : Hop) (x : Datagram) (packed : Prop)
    (unpacked : Verdict → Prop) (st : Option Session) (v : Verdict) : Prop where
  learns : ∀ s, st = some s → Learns (P.env h) x.mem (accelAt (n.record h)) s.accel
  kept : h = .c → st = none → n.record .c = none ∨ ¬ P.Relied n
  copied : ∀ q, v.copied = some q → q = x.mem
  sent : h = x.entry → ∀ q, v.sent x.mem = some q → P.OnWay ⟨x.entry, q, packed⟩
  told : h = .c → x.entry = .c → ∀ q, v.sent x.mem = some q → Announces (P.env .a) q →
    accelAt st (P.side .c) = (P.env .c).id
  packs : h = .a → x.entry = .a → packed →
    accelAt (n.record .a) (P.side .c) ≠ .zero ∧ accelAt (n.record .a) (P.side .c) ≠ (P.env .a).id
  opened : h = .c → x.entry = .a → x.packed → ∀ q, v.sent x.mem = some q → unpacked v

section Settle

variable {h : Hop} {x : Datagram} {packed : Prop} {unpacked : Verdict → Prop} {st : Option Session}
  {v : Verdict}

theorem AtHand.relied_of_announces (hat : AtHand P n .a x) (hentry : x.entry = .c)
    (htold : Announces (P.env .a) x.mem) : P.Relied n := by
  rcases hat.second (by rw [hentry]; decide) with hx | ⟨w, hw, rfl, hcopy⟩
  · exact .announcing hx hentry htold
  · exact .announced hw hentry (by rwa [hcopy])

theorem AtHand.relied_of_packed (hat : AtHand P n .c x) (hentry : x.entry = .a)
    (hpacked : x.packed) :
    P.Relied n := by
  rcases hat.second (by rw [hentry]; decide) with hx | ⟨w, hw, rfl, -⟩
  · exact .travelling hx hentry hpacked
  · exact .arrived hw hentry hpacked

theorem AtHand.source (hat : AtHand P n h x) :
    sourceSide x.mem.key.largerIP x.mem = P.side x.entry := by
  rw [hat.onWay.key]
  exact hat.onWay.side

/-- What a packet does to the record of the server's side. A packet of the client says nothing about
it. -/
theorem Passed.server {s : Session} (hat : AtHand P n h x)
    (hp : Passed P n h x packed unpacked (some s) v) :
    s.accel (P.side .c) = accelAt (n.record h) (P.side .c) ∨ s.accel (P.side .c) = (P.env h).id ∨
      x.entry = .c ∧ Announces (P.env h) x.mem := by
  have hlearns := hp.learns s rfl
  have hsource := hat.source
  cases hentry : x.entry with
  | a => exact .inl (hlearns.other (P.side .c) (by rw [hsource, hentry]; exact side_ne))
  | c =>
    have hown := hlearns.source
    rw [hsource, hentry] at hown
    rcases hown with hsame | hself | htold
    · exact .inl hsame
    · exact .inr (.inl hself)
    · exact .inr (.inr ⟨rfl, htold⟩)

theorem Passed.recorded (hat : AtHand P n .a x) (hp : Passed P n .a x packed unpacked st v)
    (hz : accelAt st (P.side .c) ≠ .zero) (hid : accelAt st (P.side .c) ≠ (P.env .a).id) :
    P.Relied n := by
  obtain ⟨s, hs, -⟩ := exists_of_accelAt hz
  subst hs
  rw [accelAt_some] at hz hid
  rcases hp.server hat with hsame | hself | ⟨hentry, htold⟩
  · rw [hsame] at hz hid
    exact .recorded hz hid
  · exact absurd hself hid
  · exact hat.relied_of_announces hentry htold

theorem mem_wire_settle {y : Datagram}
    (hy : y ∈ (n₀.settle h x packed unpacked (.ok (st, v))).wire) :
    y ∈ n₀.wire ∨ h = x.entry ∧ ∃ q, v.sent x.mem = some q ∧ y = ⟨x.entry, q, packed⟩ := by
  rcases List.mem_append.1 hy with hy | hy
  · exact .inl hy
  · split at hy
    · next hentry =>
      rw [Option.mem_toList, Option.map_eq_some_iff] at hy
      obtain ⟨q, hq, rfl⟩ := hy
      exact .inr ⟨hentry, q, hq, rfl⟩
    · exact nomatch hy

theorem mem_waiting_settle {hop : Hop} {w : Waiting}
    (hw : w ∈ (n₀.settle h x packed unpacked (.ok (st, v))).waiting hop) :
    w ∈ n₀.waiting hop ∨ hop = h ∧ ∃ q, v.copied = some q ∧ w = ⟨x, q⟩ := by
  by_cases hhop : hop = h
  · subst hhop
    dsimp only [Net.settle] at hw
    rw [Function.update_self] at hw
    rcases List.mem_append.1 hw with hw | hw
    · exact .inl hw
    · rw [Option.mem_toList, Option.map_eq_some_iff] at hw
      obtain ⟨q, hq, rfl⟩ := hw
      exact .inr ⟨rfl, q, hq, rfl⟩
  · dsimp only [Net.settle] at hw
    rw [Function.update_of_ne hhop] at hw
    exact .inl hw

theorem mem_delivered_settle {y : Delivery}
    (hy : y ∈ (n₀.settle h x packed unpacked (.ok (st, v))).delivered) :
    y ∈ n₀.delivered ∨ h ≠ x.entry ∧ ∃ q, v.sent x.mem = some q ∧ y = ⟨x, unpacked v⟩ := by
  rcases List.mem_append.1 hy with hy | hy
  · exact .inl hy
  · split at hy
    · exact nomatch hy
    · next hentry =>
      rw [Option.mem_toList, Option.map_eq_some_iff] at hy
      obtain ⟨q, hq, rfl⟩ := hy
      exact .inr ⟨hentry, q, hq, rfl⟩

/-- A packet makes A rely on C only when C has just tagged it. -/
theorem Passed.relied (hat : AtHand P n h x) (hp : Passed P n h x packed unpacked st v)
    (hle : Lighter n₀ n) (hr : P.Relied (n₀.settle h x packed unpacked (.ok (st, v)))) :
    P.Relied n ∨ h = .c ∧ x.entry = .c ∧ ∃ q, v.sent x.mem = some q ∧ Announces (P.env .a) q := by
  cases hr with
  | recorded hz hid =>
    dsimp only [Net.settle] at hz hid
    cases h with
    | a =>
      rw [Function.update_self] at hz hid
      exact .inl (hp.recorded hat hz hid)
    | c =>
      rw [Function.update_of_ne (by decide), hle.record] at hz hid
      exact .inl (.recorded hz hid)
  | announcing hy hentry htold =>
    rcases mem_wire_settle hy with hy | ⟨hh, q, hq, rfl⟩
    · exact .inl (.announcing (hle.wire _ hy) hentry htold)
    · exact .inr ⟨hh.trans hentry, hentry, q, hq, htold⟩
  | announced hw hentry htold =>
    rcases mem_waiting_settle hw with hw | ⟨rfl, q, hq, rfl⟩
    · exact .inl (.announced (hle.waiting _ _ hw) hentry htold)
    · obtain rfl := hp.copied q hq
      exact .inl (hat.relied_of_announces hentry htold)
  | travelling hy hentry hpacked =>
    rcases mem_wire_settle hy with hy | ⟨hh, q, hq, rfl⟩
    · exact .inl (.travelling (hle.wire _ hy) hentry hpacked)
    · obtain ⟨hz, hid⟩ := hp.packs (hh.trans hentry) hentry hpacked
      exact .inl (.recorded hz hid)
  | arrived hw hentry hpacked =>
    rcases mem_waiting_settle hw with hw | ⟨rfl, q, hq, rfl⟩
    · exact .inl (.arrived (hle.waiting _ _ hw) hentry hpacked)
    · exact .inl (hat.relied_of_packed hentry hpacked)

theorem Passed.backed (hj : P.Joined) (hI : P.Inv n) (hat : AtHand P n .c x)
    (hp : Passed P n .c x packed unpacked st v) (hr : P.Relied n) : accelAt st (P.side .c) =
    (P.env .c).id := by
  have hbacked := hI.backed hr
  cases st with
  | none =>
    rcases hp.kept rfl rfl with hnone | hnot
    · rw [hnone, accelAt_none] at hbacked
      exact absurd hbacked.symm hj.id
    · exact absurd hr hnot
  | some s =>
    rw [accelAt_some]
    rcases hp.server hat with hsame | hself | ⟨hentry, htold⟩
    · exact hsame.trans hbacked
    · exact hself
    · obtain ⟨os, hos⟩ := (hat.first hentry.symm).1.ordinary
      exact absurd htold (hos.not_announces _)

/-- **One packet at one node.** -/
theorem Inv.settle (hI : P.Inv n) (hj : P.Joined) (hle : Lighter n₀ n) (hat : AtHand P n h x)
    {r : Exec (Option Session × Verdict)}
    (hr : Post r fun r => Passed P n h x packed unpacked r.1 r.2) :
    P.Inv (n₀.settle h x packed unpacked r) := by
  have hI₀ := hI.lighter hle
  cases r with
  | error e => exact hI.lighter ⟨hle.record, hle.waiting, hle.wire, hle.delivered⟩
  | ok r =>
    obtain ⟨st, v⟩ := r
    have hp := hr _ rfl
    dsimp only at hp
    refine ⟨fun y hy => ?_, fun hop w hw => ?_, fun hrelied => ?_, fun y hy => ?_⟩
    · rcases mem_wire_settle hy with hy | ⟨hh, q, hq, rfl⟩
      · exact hI₀.wire y hy
      · exact hp.sent hh q hq
    · rcases mem_waiting_settle hw with hw | ⟨rfl, q, hq, rfl⟩
      · exact hI₀.waiting hop w hw
      · exact ⟨hp.copied q hq, hat.onWay, hat.first⟩
    · have hcases := hp.relied hat hle hrelied
      cases h with
      | a =>
        dsimp only [Net.settle]
        rw [Function.update_of_ne (by decide), hle.record]
        rcases hcases with hbefore | ⟨hh, -⟩
        · exact hI.backed hbefore
        · exact nomatch hh
      | c =>
        dsimp only [Net.settle]
        rw [Function.update_self]
        rcases hcases with hbefore | ⟨-, hentry, q, hq, htold⟩
        · exact hp.backed hj hI hat hbefore
        · exact hp.told rfl hentry q hq htold
    · rcases mem_delivered_settle hy with hy | ⟨hh, q, hq, rfl⟩
      · exact hI₀.delivered y hy
      · intro hentry hpacked
        have hc : h = .c := by
          cases h with
          | a => exact absurd hentry.symm hh
          | c => rfl
        exact hp.opened hc hentry hpacked q hq

end Settle

/-! ## The actions -/

section Act

variable {h : Hop} {x : Datagram}

theorem FromEndpoint.onWay {p q : Mem} {packed : Prop} (hp : P.FromEndpoint h p) (hq : Carried p q)
    (hmarked : h = .a → packed → Marked (P.env .c) (P.env .a).id q) : P.OnWay ⟨h, q, packed⟩ where
  key := hq.ends.key.trans hp.key
  side := by
    rw [← hp.side]
    unfold sourceSide
    rw [hq.ends.saddr]
  ihl := by
    obtain ⟨os, hos⟩ := hp.ordinary
    rw [hq.ends.ihl]
    exact hos.wellFormed.ihl
  doff := hq.doff
  whole := hq.whole
  marked := hmarked

theorem AtHand.largerIP (hat : AtHand P n h x) (hj : P.Joined) : x.mem.key.largerIP ≠ 0 := by
  rw [hat.onWay.key]
  exact hj.largerIP

theorem AtHand.session_of_packed (hat : AtHand P n .c x) (hj : P.Joined) (hI : P.Inv n)
    (hentry : x.entry = .a) (hpacked : x.packed) :
    ∃ s, n.record .c = some s ∧ s.accel (sourceSide x.mem.key.largerIP x.mem).other =
      (P.env .c).id := by
  obtain ⟨s, hs, haccel⟩ := hI.session_of_relied hj (hat.relied_of_packed hentry hpacked)
  refine ⟨s, hs, ?_⟩
  rw [hat.source, hentry]
  exact haccel

/-- **A call of the fetcher.** -/
theorem passed_fetch (hI : P.Inv n) (hj : P.Joined) (hat : AtHand P n h x) (f : Fetch) :
    Post (fetcherRecord (P.env h) (f.number + 1) x.mem.totLen f.buffer
      (f.queue.map (newSession P.key)) x.mem (n.record h)) fun r =>
        Passed P n h x x.packed (fun _ => False) r.1 r.2 := by
  have hnew : ∀ side, accelAt (f.queue.map (newSession P.key)) side = .zero := by
    intro side
    cases f.queue with
    | none => rfl
    | some queue => exact Session.accel_newSession side P.key queue
  intro r hr
  obtain ⟨hlearns, hkept, hcopied⟩ := fetcherRecord_learns hat.onWay.ihl _ _ _ hnew _ r hr
  -- what the first node sends on
  have hsent : h = x.entry → ∀ q, r.2.sent x.mem = some q → SentOn (P.env h) x.mem r.1 q := by
    intro hentry q hq
    obtain ⟨os, hos⟩ := (hat.first hentry).1.ordinary
    exact hos.fetcherRecord (hat.largerIP hj) _ _ _ _ _ r hr q hq
  refine ⟨hlearns, ?_, ?_, ?_, ?_, ?_, ?_⟩
  · rintro rfl hnone
    exact .inl (hkept hnone)
  · intro q hq
    exact (hcopied q hq).trans hat.onWay.whole
  · rintro rfl q hq
    exact (hat.first rfl).1.onWay (hsent rfl q hq).1 fun _ hpacked =>
      absurd hpacked (hat.first rfl).2
  · rintro rfl hentry q hq htold
    rcases (hsent hentry.symm q hq).2 with huntold | ⟨s, hs, haccel⟩
    · exact absurd htold (huntold _)
    · rw [hs, accelAt_some, ← haccel, hat.source, hentry]
  · intro hh hentry hpacked
    exact absurd hpacked (hat.first (hh.trans hentry.symm)).2
  · rintro rfl hentry hpacked q hq
    obtain ⟨s, hs, -⟩ := hat.session_of_packed hj hI hentry hpacked
    rw [hs, (hat.onWay.marked hentry hpacked).fetcherRecord hj.running, Except.ok.injEq] at hr
    subst hr
    rw [sent_dataVerdict] at hq
    exact nomatch hq

/-- **A pass of a worker.** At C it ends the session only when A does not rely on it, and with no
packet of the server that it has tagged. -/
theorem passed_work (hI : P.Inv n) (hj : P.Joined) (hat : AtHand P n h x) {reread : Mem}
    (hcareful : h = .c → ∀ s, n.record .c = some s → EndsSession (P.env .c) reread x.mem s →
      ¬ P.Relied n ∧ (x.entry = .c → ¬ Rewritten x.mem)) :
    Post (workerRecord (P.env h) reread x.mem (n.record h)) fun r =>
      Passed P n h x (x.packed ∨ Packs (P.env h) (n.record h) x.mem)
        (Unpacks (P.env h) (n.record h) x.mem) r.1 r.2 := by
  intro r hr
  obtain ⟨hlearns, hends, hcopied⟩ := workerRecord_learns hat.onWay.doff _ _ r hr
  -- what the first node sends on
  have hsent : h = x.entry → ∀ q, r.2.sent x.mem = some q →
      WorkedOn (P.env h) x.mem (n.record h) r.1 q := by
    intro hentry
    obtain ⟨os, hos⟩ := (hat.first hentry).1.ordinary
    exact hos.workerRecord (hat.largerIP hj) _ _ r hr
  refine ⟨hlearns, ?_, ?_, ?_, ?_, ?_, ?_⟩
  · rintro rfl hnone
    cases hrec : n.record .c with
    | none => exact .inl rfl
    | some s => exact .inr (hcareful rfl s hrec (hends hnone s hrec)).1
  · intro q hq
    rw [hcopied] at hq
    exact nomatch hq
  · rintro rfl q hq
    obtain ⟨hcarried, -, hflagged⟩ := hsent rfl q hq
    refine (hat.first rfl).1.onWay hcarried fun hentry hpacked => ?_
    have hpacked := hpacked.resolve_left (hat.first rfl).2
    obtain ⟨htag, hflag⟩ := hflagged hpacked
    obtain ⟨os, hos⟩ := (hat.first rfl).1.ordinary
    rw [hentry] at htag
    exact ⟨hcarried.ends.protocol.trans hos.tcp,
      (rewritten_iff hcarried.ends.flags).2 hpacked.flags, htag _, hflag⟩
  · rintro rfl hentry q hq htold
    obtain ⟨-, htagged, -⟩ := hsent hentry.symm q hq
    rcases htagged with huntold | ⟨hflags, hsome, haccel⟩
    · exact absurd htold (huntold _)
    · cases hst : r.1 with
      | some s => rw [accelAt_some, ← haccel s hst, hat.source, hentry]
      | none =>
        obtain ⟨s, hs⟩ := Option.ne_none_iff_exists'.1 hsome
        exact absurd hflags ((hcareful rfl s hs (hends hst s hs)).2 hentry)
  · rintro rfl hentry hpacked
    obtain ⟨s, q, hs, hc, -⟩ := hpacked.resolve_left (hat.first hentry.symm).2
    have hother := hc.accel_other hat.onWay.ihl (hat.largerIP hj)
    rw [hat.source, hentry] at hother
    rw [hs]
    exact hother
  · rintro rfl hentry hpacked q hq
    obtain ⟨s, hs, haccel⟩ := hat.session_of_packed hj hI hentry hpacked
    rw [hs] at hr ⊢
    exact (hat.onWay.marked hentry hpacked).workerRecord hj.neighbor _ haccel r hr q hq

end Act

/-! ## Runs -/

theorem Inv.sweep (hI : P.Inv n) (h : Hop) (hc : h = .c → ¬ P.Relied n) :
    P.Inv { n with record := Function.update n.record h none } := by
  refine ⟨hI.wire, hI.waiting, fun hr => ?_, hI.delivered⟩
  have hbefore : P.Relied n := by
    cases hr with
    | recorded hz hid =>
      dsimp only at hz hid
      cases h with
      | a =>
        rw [Function.update_self] at hz
        exact absurd rfl hz
      | c =>
        rw [Function.update_of_ne (by decide)] at hz hid
        exact .recorded hz hid
    | announcing hx hentry htold => exact .announcing hx hentry htold
    | announced hw hentry htold => exact .announced hw hentry htold
    | travelling hx hentry hpacked => exact .travelling hx hentry hpacked
    | arrived hw hentry hpacked => exact .arrived hw hentry hpacked
  cases h with
  | a =>
    dsimp only
    rw [Function.update_of_ne (by decide)]
    exact hI.backed hbefore
  | c => exact absurd hbefore (hc rfl)

/-- **One action.** -/
theorem Inv.step (hj : P.Joined) (hI : P.Inv n) {a : Action} (hc : P.Careful n a) :
    P.Inv (P.step n a) := by
  by_cases hdown : n.down = true
  · have hsame : P.step n a = n := by cases a <;> exact if_pos hdown
    rw [hsame]
    exact hI
  cases a with
  | send entry p f =>
    rw [Path.step, if_neg hdown]
    obtain ⟨os, hos⟩ := hc.ordinary
    have hat : AtHand P n entry ⟨entry, p, False⟩ :=
      ⟨hc.onWay hos.carried fun _ hpacked => hpacked.elim, fun _ => ⟨hc, id⟩,
        fun hne => absurd rfl hne⟩
    exact hI.settle hj ⟨rfl, fun _ _ hw => hw, fun _ hx => hx, rfl⟩ hat (passed_fetch hI hj hat f)
  | fetch i f =>
    rw [Path.step, if_neg hdown]
    cases hx : n.wire[i]? with
    | none => exact hI
    | some x =>
      have hmem := List.mem_of_getElem? hx
      have hat : AtHand P n x.entry.other x :=
        ⟨hI.wire x hmem, fun hentry => absurd hentry (Hop.other_ne _), fun _ => .inl hmem⟩
      have hle : Lighter { n with wire := n.wire.eraseIdx i } n :=
        ⟨rfl, fun _ _ hw => hw, fun _ hy => List.mem_of_mem_eraseIdx hy, rfl⟩
      exact hI.settle hj hle hat (passed_fetch hI hj hat f)
  | lose i =>
    rw [Path.step, if_neg hdown]
    exact hI.lighter ⟨rfl, fun _ _ hw => hw, fun _ hy => List.mem_of_mem_eraseIdx hy, rfl⟩
  | work h i reread =>
    rw [Path.step, if_neg hdown]
    cases hw : (n.waiting h)[i]? with
    | none => exact hI
    | some w =>
      have hmem := List.mem_of_getElem? hw
      obtain ⟨hcopy, honWay, hfirst⟩ := hI.waiting h w hmem
      have hat : AtHand P n h w.packet := ⟨honWay, hfirst, fun _ => .inr ⟨w, hmem, rfl, hcopy⟩⟩
      have hcareful : h = .c → ∀ s, n.record .c = some s →
        EndsSession (P.env .c) reread w.packet.mem s →
          ¬ P.Relied n ∧ (w.packet.entry = .c → ¬ Rewritten w.packet.mem) := by
        rintro rfl s hs hcloses
        rw [← hcopy] at hcloses ⊢
        exact hc w s hw hs hcloses
      have hle : Lighter
          { n with waiting := Function.update n.waiting h ((n.waiting h).eraseIdx i) } n := by
        refine ⟨rfl, fun hop w' hw' => ?_, fun _ hx => hx, rfl⟩
        dsimp only at hw'
        by_cases hhop : hop = h
        · subst hhop
          rw [Function.update_self] at hw'
          exact List.mem_of_mem_eraseIdx hw'
        · rwa [Function.update_of_ne hhop] at hw'
      dsimp only [Path.work]
      rw [hcopy]
      exact hI.settle hj hle hat (passed_work hI hj hat hcareful)
  | sweep h =>
    rw [Path.step, if_neg hdown]
    refine hI.sweep h ?_
    rintro rfl
    exact hc

end Path

end Opennop
