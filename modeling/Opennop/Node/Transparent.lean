import Opennop.Node.Conveyed
import Opennop.Node.Flow
import Opennop.Node.Leak
import Opennop.Quicklz.Blocks

/-!
# Transparency

What the accelerators are for: the endpoints do not notice them. On every run in which no node loses
a session that the other one relies on, each endpoint gets at most once what the other one has sent,
with the data, the sequence number and everything else in the headers as they were, and neither node
fails on the way. This holds in both directions at once, with whatever order, delay and loss between
the nodes, and with QuickLZ as it is.
-/

namespace Opennop

open Mem

/-- What an endpoint got is a packet of the other one, intact, namely the one with its number. -/
def Flow.Arrived (f : Flow) (e : Nat × Delivery × Mem) : Prop :=
  ∃ p os, f.sent[e.1]? = some (e.2.1.packet.entry, p) ∧ Ordinary p os ∧ Intact p os e.2.2

/-- Nothing is lost, changed or made up by the nodes but packets: no node is down, no packet arrives
twice, and what arrives was sent. -/
structure Flow.Transparent (f : Flow) : Prop where
  up : f.down = false
  once : (f.delivered.map Prod.fst).Nodup
  intact : ∀ e ∈ f.delivered, f.Arrived e

namespace Path

variable (P : Path)

/-- Both nodes run and compress with QuickLZ, and each has the other one for a neighbor in state
UP. -/
structure Paired : Prop where
  largerIP : P.key.largerIP ≠ 0
  running : ∀ h, (P.env h).running
  id : ∀ h, (P.env h).id ≠ .zero
  neighbor : ∀ h, verifyNeighborInDomain (P.env h).neighbors (P.env h.other).id = true
  qlz : ∀ h, ∃ b, (P.env h).qlz = Quicklz.quicklz b b

/-- The conditions on a run, for either direction: ordinary packets that fit the buffer of a packet,
and no session lost that the other node relies on. -/
structure Steady (n : Net) (a : Action) : Prop where
  toServer : P.Careful n a
  toClient : P.mirror.Careful n.mirror a.mirror
  fits : ∀ entry p f, a = .send entry p f → p.totLen ≤ bufsize

/-! ## The invariant -/

/-- The packet `x` between the nodes is in place of the packet with the number `i`. -/
def Stems (sent : List (Hop × Mem)) (i : Nat) (x : Datagram) : Prop :=
  ∃ p os, sent[i]? = some (x.entry, p) ∧ Ordinary p os ∧ Conveys (P.env x.entry) p os x.mem x.packed

/-- So it is at the second node; at the first one it is that packet. -/
structure Held (sent : List (Hop × Mem)) (h : Hop) (i : Nat) (x : Datagram) : Prop where
  first : h = x.entry → sent[i]? = some (x.entry, x.mem)
  second : h ≠ x.entry → P.Stems sent i x

structure Followed (f : Flow) : Prop where
  up : f.down = false
  /-- A session has the local node for the side next to it, or none. -/
  own : ∀ h, accelAt (f.record h) (P.side h) = .zero ∨
    accelAt (f.record h) (P.side h) = (P.env h).id
  fits : ∀ e ∈ f.sent, e.2.totLen ≤ bufsize
  wire : ∀ e ∈ f.wire, P.Stems f.sent e.1 e.2
  waiting : ∀ h, ∀ e ∈ f.waiting h, P.Held f.sent h e.1 e.2.packet
  delivered : ∀ e ∈ f.delivered, f.Arrived e
  once : f.serials.Nodup
  known : ∀ i ∈ f.serials, i < f.sent.length

variable {P} {f : Flow} {h : Hop} {x : Datagram} {i : Nat}

theorem Followed.transparent (hF : P.Followed f) : f.Transparent where
  up := hF.up
  once := Multiset.coe_nodup.1 (Multiset.nodup_of_le (Multiset.le_add_left _ _) hF.once)
  intact := hF.delivered

theorem followed_init : P.Followed Flow.init where
  up := rfl
  own _ := .inl rfl
  fits _ he := absurd he List.not_mem_nil
  wire _ he := absurd he List.not_mem_nil
  waiting _ _ he := absurd he List.not_mem_nil
  delivered _ he := absurd he List.not_mem_nil
  once := Multiset.nodup_zero
  known i hi := absurd hi (Multiset.notMem_zero i)

/-! ## One packet at one node -/

/-- The packet `x` with the number `i` is at hand at the node `h`. -/
structure AtNode (P : Path) (f : Flow) (h : Hop) (i : Nat) (x : Datagram) :
    Prop extends P.Held f.sent h i x where
  onWay : P.OnWay x
  endpoint : h = x.entry → P.FromEndpoint h x.mem ∧ ¬ x.packed ∧ x.mem.totLen ≤ bufsize
  backed : h ≠ x.entry → x.packed → ∃ s, f.record h = some s ∧ s.accel (P.side h) = (P.env h).id

theorem side_other_ne (h : Hop) : P.side h.other ≠ P.side h := by
  cases h with
  | a => exact side_ne
  | c => exact side_ne.symm

theorem side_other (h : Hop) : (P.side h).other = P.side h.other := by
  cases h with
  | a => rfl
  | c => exact Side.other_other P.client

theorem other_of_ne {h k : Hop} (hne : h ≠ k) : h = k.other := by
  cases h <;> cases k <;> first | rfl | exact absurd rfl hne

namespace AtNode

variable (hat : P.AtNode f h i x) (hp : P.Paired)
include hat

theorem source : sourceSide x.mem.key.largerIP x.mem = P.side x.entry := by
  rw [hat.onWay.key]
  exact hat.onWay.side

include hp in
theorem largerIP : x.mem.key.largerIP ≠ 0 := by
  rw [hat.onWay.key]
  exact hp.largerIP

/-- A node learns nothing but itself about the side next to it. -/
theorem own {st : Option Session} (hown : accelAt (f.record h) (P.side h) = .zero ∨
      accelAt (f.record h) (P.side h) = (P.env h).id)
    (hlearns : ∀ s, st = some s → Learns (P.env h) x.mem (accelAt (f.record h)) s.accel) :
    accelAt st (P.side h) = .zero ∨ accelAt st (P.side h) = (P.env h).id := by
  cases st with
  | none => exact .inl rfl
  | some s =>
    rw [accelAt_some]
    have hl := hlearns s rfl
    by_cases hentry : h = x.entry
    · have hsource := hl.source
      rw [hat.source, ← hentry] at hsource
      rcases hsource with hsame | hself | htold
      · rwa [hsame]
      · exact .inr hself
      · obtain ⟨os, hos⟩ := (hat.endpoint hentry).1.ordinary
        exact absurd htold (hos.not_announces _)
    · have hother : P.side h ≠ sourceSide x.mem.key.largerIP x.mem := by
        rw [hat.source, other_of_ne hentry]
        exact side_other_ne _
      rwa [hl.other _ hother]

include hp in
/-- The second node does not compress. -/
theorem not_packs (hne : h ≠ x.entry) (hown : accelAt (f.record h) (P.side h) = .zero ∨
      accelAt (f.record h) (P.side h) = (P.env h).id) : ¬ Packs (P.env h) (f.record h) x.mem := by
  rintro ⟨s, q, hs, hc, -⟩
  have hother := hc.accel_other hat.onWay.ihl (hat.largerIP hp)
  rw [hat.source, side_other, ← other_of_ne hne] at hother
  rw [hs, accelAt_some] at hown
  exact hown.elim hother.1 hother.2

end AtNode

/-- What becomes of a packet: the record stays within the invariant, and what is sent is in place of
the packet. -/
structure Handled (P : Path) (sent : List (Hop × Mem)) (h : Hop) (i : Nat) (x : Datagram)
    (packed : Prop) (r : Option Session × Verdict) : Prop where
  own : accelAt r.1 (P.side h) = .zero ∨ accelAt r.1 (P.side h) = (P.env h).id
  first : h = x.entry → ∀ m, r.2.sent x.mem = some m → P.Stems sent i ⟨x.entry, m, packed⟩
  second : h ≠ x.entry → ∀ q, r.2.sent x.mem = some q →
    ∃ p os, sent[i]? = some (x.entry, p) ∧ Ordinary p os ∧ Intact p os q

namespace AtNode

variable (hat : P.AtNode f h i x) (hp : P.Paired) (hown : accelAt (f.record h) (P.side h) = .zero ∨
      accelAt (f.record h) (P.side h) = (P.env h).id)
include hat hp hown

omit hown in
theorem fetcherRecord_sent (g : Fetch) :
    ∃ r, fetcherRecord (P.env h) (g.number + 1) x.mem.totLen g.buffer
      (g.queue.map (newSession P.key)) x.mem (f.record h) = .ok r ∧
    (h = x.entry → ∀ m, r.2.sent x.mem = some m → P.Stems f.sent i ⟨x.entry, m, x.packed⟩) ∧
    (h ≠ x.entry → ∀ q, r.2.sent x.mem = some q →
      ∃ p os, f.sent[i]? = some (x.entry, p) ∧ Ordinary p os ∧ Intact p os q) := by
  by_cases hentry : h = x.entry
  · obtain ⟨hfrom, hpacked, -⟩ := hat.endpoint hentry
    obtain ⟨os, hos⟩ := hfrom.ordinary
    obtain ⟨r, hr, hforwards⟩ :=
      hos.fetcherRecord_forwards (P.env h) (g.number + 1) x.mem.totLen g.buffer
      (g.queue.map (newSession P.key)) (f.record h)
    refine ⟨r, hr, fun _ m hm => ?_, fun hne => absurd hentry hne⟩
    refine ⟨x.mem, os, hat.first hentry, hos, fun _ => ?_, fun hp => absurd hp hpacked⟩
    rw [← hentry]
    exact hforwards m hm
  · obtain ⟨p, os, hsent, hos, hconveys⟩ := hat.second hentry
    have hneighbor := hp.neighbor h
    rw [other_of_ne hentry, Hop.other_other, ← other_of_ne hentry] at hneighbor
    by_cases hpacked : x.packed
    · obtain ⟨s, hs, -⟩ := hat.backed hentry hpacked
      obtain ⟨r, hr, hnone⟩ :=
        (hconveys.compressed hpacked).fetcherRecord_queues hos (hp.running h) g.number
        x.mem.totLen g.buffer (g.queue.map (newSession P.key)) s
      rw [hs]
      refine ⟨r, hr, fun heq => absurd heq hentry, fun _ q hq => ?_⟩
      rw [hnone] at hq
      cases hq
    · obtain ⟨r, hr, hintact⟩ :=
        (hconveys.forwarded hpacked).fetcherRecord_intact hos hneighbor (g.number + 1)
        x.mem.totLen g.buffer (g.queue.map (newSession P.key)) (f.record h)
      exact ⟨r, hr, fun heq => absurd heq hentry, fun _ q hq => ⟨p, os, hsent, hos, hintact q hq⟩⟩

/-- **A call of the fetcher.** -/
theorem handled_fetch (g : Fetch) :
    ∃ r, fetcherRecord (P.env h) (g.number + 1) x.mem.totLen g.buffer
      (g.queue.map (newSession P.key)) x.mem (f.record h) = .ok r ∧
        Handled P f.sent h i x x.packed r := by
  have hnew : ∀ side, accelAt (g.queue.map (newSession P.key)) side = .zero := by
    intro side
    cases g.queue with
    | none => rfl
    | some queue => exact Session.accel_newSession side P.key queue
  obtain ⟨r, hr, hfirst, hsecond⟩ := hat.fetcherRecord_sent hp g
  obtain ⟨hlearns, -, -⟩ := fetcherRecord_learns hat.onWay.ihl _ _ _ hnew _ r hr
  exact ⟨r, hr, hat.own hown hlearns, hfirst, hsecond⟩

theorem workerRecord_sent (reread : Mem) :
    ∃ r, workerRecord (P.env h) reread x.mem (f.record h) = .ok r ∧
    (h = x.entry → ∀ m, r.2.sent x.mem = some m →
      P.Stems f.sent i ⟨x.entry, m, x.packed ∨ Packs (P.env h) (f.record h) x.mem⟩) ∧
    (h ≠ x.entry → ∀ q, r.2.sent x.mem = some q →
      ∃ p os, f.sent[i]? = some (x.entry, p) ∧ Ordinary p os ∧ Intact p os q) := by
  by_cases hentry : h = x.entry
  · obtain ⟨hfrom, hpacked, hfits⟩ := hat.endpoint hentry
    obtain ⟨os, hos⟩ := hfrom.ordinary
    have hshort : ((P.env h).qlz.compress x.mem.payload).length < 65536 := by
      obtain ⟨b, hb⟩ := hp.qlz h
      have hbound := (Quicklz.quicklz_inverts b b).2 x.mem.payload
      have hlen := hos.wellFormed.payload_shows.2
      unfold bufsize at hfits
      rw [hb]
      omega
    obtain ⟨r, hr, hconveys⟩ :=
      hos.workerRecord_conveys reread fun _ : Packs (P.env h) (f.record h) x.mem => hshort
    refine ⟨r, hr, fun _ m hm => ?_, fun hne => absurd hentry hne⟩
    obtain ⟨hforwarded, hcompressed⟩ := hconveys m hm
    refine ⟨x.mem, os, hat.first hentry, hos, fun hnot => ?_, fun hpack => ?_⟩
    · rw [← hentry]
      exact hforwarded fun hpack => hnot (.inr hpack)
    · rw [← hentry]
      exact hcompressed (hpack.resolve_left hpacked)
  · obtain ⟨p, os, hsent, hos, hconveys⟩ := hat.second hentry
    have hneighbor := hp.neighbor h
    rw [other_of_ne hentry, Hop.other_other, ← other_of_ne hentry] at hneighbor
    by_cases hpacked : x.packed
    · obtain ⟨s, hs, haccel⟩ := hat.backed hentry hpacked
      have hinverts : Qlz.Inverts ⟨(P.env x.entry).qlz.compress, (P.env h).qlz.decompress⟩ := by
        obtain ⟨b, hb⟩ := hp.qlz x.entry
        obtain ⟨b', hb'⟩ := hp.qlz h
        rw [hb, hb']
        exact (Quicklz.quicklz_inverts b b').1
      have hside : s.accel (sourceSide x.mem.key.largerIP x.mem).other = (P.env h).id := by
        rw [hat.source, side_other, ← other_of_ne hentry]
        exact haccel
      obtain ⟨r, hr, hintact⟩ :=
        (hconveys.compressed hpacked).workerRecord_intact hos hinverts hneighbor reread
        hside
      rw [hs]
      exact ⟨r, hr, fun heq => absurd heq hentry, fun _ q hq => ⟨p, os, hsent, hos, hintact q hq⟩⟩
    · obtain ⟨r, hr, hintact⟩ :=
        (hconveys.forwarded hpacked).workerRecord_intact hos hneighbor reread
        (hat.not_packs hp hentry hown)
      exact ⟨r, hr, fun heq => absurd heq hentry, fun _ q hq => ⟨p, os, hsent, hos, hintact q hq⟩⟩

/-- **A pass of a worker.** -/
theorem handled_work (reread : Mem) :
    ∃ r, workerRecord (P.env h) reread x.mem (f.record h) = .ok r ∧
    Handled P f.sent h i x (x.packed ∨ Packs (P.env h) (f.record h) x.mem) r := by
  obtain ⟨r, hr, hfirst, hsecond⟩ := hat.workerRecord_sent hp hown reread
  obtain ⟨hlearns, -, -⟩ := workerRecord_learns hat.onWay.doff _ _ r hr
  exact ⟨r, hr, hat.own hown hlearns, hfirst, hsecond⟩

end AtNode

/-! ## One action -/

/-- **One packet at one node.** -/
theorem Followed.settle (hF : P.Followed f) {x : Nat × Datagram} (hheld : P.Held f.sent h x.1 x.2)
    (hfresh : x.1 ∉ f.serials) (hlt : x.1 < f.sent.length) {packed : Prop}
    {unpacked : Verdict → Prop}
    {r : Option Session × Verdict} (hr : Handled P f.sent h x.1 x.2 packed r) :
    P.Followed (f.settle h x packed unpacked (.ok r)) := by
  obtain ⟨st, v⟩ := r
  have hserials := f.serials_settle h x packed unpacked st v
  refine ⟨hF.up, fun k => ?_, hF.fits, fun e he => ?_, fun k e he => ?_, fun e he => ?_, ?_,
    fun i hi => ?_⟩
  · dsimp only [Flow.settle]
    by_cases hk : k = h
    · subst hk
      rw [Function.update_self]
      exact hr.own
    · rw [Function.update_of_ne hk]
      exact hF.own k
  · rcases List.mem_append.1 he with he | he
    · exact hF.wire e he
    · split at he
      · next hentry =>
        rw [Option.mem_toList, Option.map_eq_some_iff] at he
        obtain ⟨m, hm, rfl⟩ := he
        exact hr.first hentry m hm
      · exact absurd he List.not_mem_nil
  · dsimp only [Flow.settle] at he
    by_cases hk : k = h
    · subst hk
      rw [Function.update_self] at he
      rcases List.mem_append.1 he with he | he
      · exact hF.waiting k e he
      · rw [Option.mem_toList, Option.map_eq_some_iff] at he
        obtain ⟨m, -, rfl⟩ := he
        exact hheld
    · rw [Function.update_of_ne hk] at he
      exact hF.waiting k e he
  · rcases List.mem_append.1 he with he | he
    · exact hF.delivered e he
    · split at he
      · exact absurd he List.not_mem_nil
      · next hentry =>
        rw [Option.mem_toList, Option.map_eq_some_iff] at he
        obtain ⟨q, hq, rfl⟩ := he
        exact hr.second hentry q hq
  · exact Multiset.nodup_of_le hserials (Multiset.nodup_cons.2 ⟨hfresh, hF.once⟩)
  · rcases Multiset.mem_cons.1 (Multiset.mem_of_le hserials hi) with rfl | hi
    · exact hlt
    · exact hF.known i hi

theorem Followed.fresh (hF : P.Followed f) {f₀ : Flow} {i : Nat}
    (hserials : f.serials = i ::ₘ f₀.serials) :
    f₀.serials.Nodup ∧ i ∉ f₀.serials ∧ i < f.sent.length ∧
      ∀ j ∈ f₀.serials, j < f.sent.length := by
  have honce := hF.once
  have hknown := hF.known
  rw [hserials] at honce hknown
  obtain ⟨hfresh, hnodup⟩ := Multiset.nodup_cons.1 honce
  exact ⟨hnodup, hfresh, hknown i (Multiset.mem_cons_self _ _),
    fun j hj => hknown j (Multiset.mem_cons_of_mem hj)⟩

theorem Followed.eraseWire (hF : P.Followed f) {i : Nat} {x : Nat × Datagram}
    (hx : f.wire[i]? = some x) :
    P.Followed { f with wire := f.wire.eraseIdx i } ∧
      x.1 ∉ { f with wire := f.wire.eraseIdx i }.serials ∧ x.1 < f.sent.length := by
  obtain ⟨hnodup, hfresh, hlt, hknown⟩ := hF.fresh (f.serials_eraseWire hx)
  exact ⟨⟨hF.up, hF.own, hF.fits, fun e he => hF.wire e (List.mem_of_mem_eraseIdx he),
    hF.waiting, hF.delivered, hnodup, hknown⟩, hfresh, hlt⟩

theorem Followed.eraseWaiting (hF : P.Followed f) {i : Nat} {w : Nat × Waiting}
    (hw : (f.waiting h)[i]? = some w) :
    P.Followed { f with waiting := Function.update f.waiting h ((f.waiting h).eraseIdx i) } ∧
      w.1 ∉ { f with waiting := Function.update f.waiting h ((f.waiting h).eraseIdx i) }.serials ∧
      w.1 < f.sent.length := by
  obtain ⟨hnodup, hfresh, hlt, hknown⟩ := hF.fresh (f.serials_eraseWaiting hw)
  refine ⟨⟨hF.up, hF.own, hF.fits, hF.wire, fun k e he => ?_, hF.delivered, hnodup,
    hknown⟩, hfresh, hlt⟩
  dsimp only at he
  by_cases hk : k = h
  · subst hk
    rw [Function.update_self] at he
    exact hF.waiting k e (List.mem_of_mem_eraseIdx he)
  · rw [Function.update_of_ne hk] at he
    exact hF.waiting k e he

theorem Followed.send (hF : P.Followed f) (entry : Hop) {p : Mem} (hfits : p.totLen ≤ bufsize) :
    P.Followed { f with sent := f.sent ++ [(entry, p)] } ∧
      f.sent.length ∉ { f with sent := f.sent ++ [(entry, p)] }.serials := by
  -- the numbers of the earlier packets stay
  have hkeep : ∀ {i : Nat} {e : Hop × Mem}, f.sent[i]? = some e →
      (f.sent ++ [(entry, p)])[i]? = some e := by
    intro i e he
    obtain ⟨hi, -⟩ := List.getElem?_eq_some_iff.1 he
    rw [List.getElem?_append_left hi, he]
  have hstems : ∀ {i : Nat} {x : Datagram}, P.Stems f.sent i x →
      P.Stems (f.sent ++ [(entry, p)]) i x := by
    rintro i x ⟨q, os, hq, hos, hconveys⟩
    exact ⟨q, os, hkeep hq, hos, hconveys⟩
  refine ⟨⟨hF.up, hF.own, fun e he => ?_, fun e he => hstems (hF.wire e he), fun k e he => ?_,
    fun e he => ?_, hF.once, fun i hi => ?_⟩, fun hmem =>
      absurd (hF.known _ hmem) (Nat.lt_irrefl _)⟩
  · rcases List.mem_append.1 he with he | he
    · exact hF.fits e he
    · rw [List.mem_singleton.1 he]
      exact hfits
  · have hheld := hF.waiting k e he
    exact ⟨fun hk => hkeep (hheld.first hk), fun hk => hstems (hheld.second hk)⟩
  · obtain ⟨q, os, hq, hos, hintact⟩ := hF.delivered e he
    exact ⟨q, os, hkeep hq, hos, hintact⟩
  · have hlt := hF.known i hi
    rw [List.length_append]
    omega

theorem Paired.joined (hp : P.Paired) : P.Joined :=
  ⟨hp.largerIP, hp.running .c, hp.id .c, hp.neighbor .c⟩

theorem Paired.joined_mirror (hp : P.Paired) : P.mirror.Joined :=
  ⟨hp.largerIP, hp.running .a, hp.id .a, hp.neighbor .a⟩

/-- The invariant of the packets that are followed, with those of both directions. -/
structure Sustained (P : Path) (f : Flow) : Prop where
  followed : P.Followed f
  toServer : P.Inv f.net
  toClient : P.mirror.Inv f.net.mirror

theorem sustained_init : P.Sustained Flow.init := by
  have hmirror : Net.init.mirror = Net.init := rfl
  refine ⟨followed_init, inv_init, ?_⟩
  have hnet : Flow.init.net.mirror = Net.init := hmirror
  rw [hnet]
  exact inv_init

namespace Sustained

variable (hS : P.Sustained f) (hp : P.Paired)
include hS hp

/-- With a compressed packet before the second node, this node has a session with itself for its
side. -/
theorem backed (hpacked : x.packed)
    (hx : x ∈ f.net.wire ∨ ∃ w ∈ f.net.waiting x.entry.other, w.packet = x) :
    ∃ s, f.record x.entry.other = some s ∧
      s.accel (P.side x.entry.other) = (P.env x.entry.other).id := by
  cases hentry : x.entry with
  | a =>
    rw [hentry] at hx
    refine hS.toServer.session_of_relied hp.joined ?_
    rcases hx with hx | ⟨w, hw, rfl⟩
    · exact .travelling hx hentry hpacked
    · exact .arrived hw hentry hpacked
  | c =>
    rw [hentry] at hx
    have hentry' : x.mirror.entry = .a := by
      dsimp only [Datagram.mirror]
      rw [hentry]
      rfl
    have hrelied : P.mirror.Relied f.net.mirror := by
      rcases hx with hx | ⟨w, hw, rfl⟩
      · exact .travelling (List.mem_map_of_mem hx) hentry' hpacked
      · have hw' : w.mirror ∈ f.net.mirror.waiting .c := List.mem_map_of_mem hw
        exact .arrived hw' hentry' hpacked
    obtain ⟨s, hs, haccel⟩ := hS.toClient.session_of_relied hp.joined_mirror hrelied
    rw [side_mirror] at haccel
    exact ⟨s, hs, haccel⟩

theorem followed_send {entry : Hop} {p : Mem} (g : Fetch) (hfrom : P.FromEndpoint entry p)
    (hfits : p.totLen ≤ bufsize) : P.Followed (P.track f (.send entry p g)) := by
  obtain ⟨hF, hfresh⟩ := hS.followed.send entry hfits
  obtain ⟨os, hos⟩ := hfrom.ordinary
  have hat : P.AtNode { f with sent := f.sent ++ [(entry, p)] } entry f.sent.length
      ⟨entry, p, False⟩ :=
    ⟨⟨fun _ => List.getElem?_concat_length, fun hne => absurd rfl hne⟩,
      hfrom.onWay hos.carried fun _ hpacked => hpacked.elim, fun _ => ⟨hfrom, id, hfits⟩, fun hne =>
        absurd rfl hne⟩
  obtain ⟨r, hr, hhandled⟩ := hat.handled_fetch hp (hF.own entry) g
  rw [track, if_neg (by rw [hS.followed.up]; decide), trackFetch]
  dsimp only at hr ⊢
  rw [hr]
  exact hF.settle hat.toHeld hfresh (by rw [List.length_append]; exact Nat.lt_succ_self _) hhandled

theorem followed_fetch (i : Nat) (g : Fetch) : P.Followed (P.track f (.fetch i g)) := by
  rw [track, if_neg (by rw [hS.followed.up]; decide)]
  cases hx : f.wire[i]? with
  | none => exact hS.followed
  | some x =>
    have hmem := List.mem_of_getElem? hx
    have hnet : x.2 ∈ f.net.wire := List.mem_map_of_mem hmem
    obtain ⟨hF, hfresh, hlt⟩ := hS.followed.eraseWire hx
    have hat : P.AtNode { f with wire := f.wire.eraseIdx i } x.2.entry.other x.1 x.2 :=
      ⟨⟨fun heq => absurd heq (Hop.other_ne _), fun _ => hS.followed.wire x hmem⟩,
        hS.toServer.wire _ hnet, fun heq => absurd heq (Hop.other_ne _), fun _ hpacked =>
          hS.backed hp hpacked (.inl hnet)⟩
    obtain ⟨r, hr, hhandled⟩ := hat.handled_fetch hp (hF.own _) g
    dsimp only [trackFetch] at hr ⊢
    rw [hr]
    exact hF.settle hat.toHeld hfresh hlt hhandled

theorem followed_work (h : Hop) (i : Nat) (reread : Mem) :
    P.Followed (P.track f (.work h i reread)) := by
  rw [track, if_neg (by rw [hS.followed.up]; decide)]
  cases hw : (f.waiting h)[i]? with
  | none => exact hS.followed
  | some w =>
    have hmem := List.mem_of_getElem? hw
    have hnet : w.2 ∈ f.net.waiting h := List.mem_map_of_mem hmem
    obtain ⟨hF, hfresh, hlt⟩ := hS.followed.eraseWaiting hw
    obtain ⟨hcopy, honWay, hfirst⟩ := hS.toServer.waiting h w.2 hnet
    have hheld := hS.followed.waiting h w hmem
    have hat :
      P.AtNode { f with waiting := Function.update f.waiting h ((f.waiting h).eraseIdx i) } h w.1
        w.2.packet := by
      refine ⟨⟨hheld.first, hheld.second⟩, honWay, fun hentry => ?_, fun hne hpacked => ?_⟩
      · obtain ⟨hfrom, hpacked⟩ := hfirst hentry
        have hsent := List.mem_of_getElem? (hheld.first hentry)
        exact ⟨hfrom, hpacked, hS.followed.fits (w.2.packet.entry, w.2.packet.mem) hsent⟩
      · obtain rfl := other_of_ne hne
        exact hS.backed hp hpacked (.inr ⟨w.2, hnet, rfl⟩)
    obtain ⟨r, hr, hhandled⟩ := hat.handled_work hp (hF.own _) reread
    dsimp only [trackWork] at hr ⊢
    rw [hcopy, hr]
    exact hF.settle hat.toHeld hfresh hlt hhandled

/-- **One action.** -/
theorem step {a : Action} (ha : P.Steady f.net a) : P.Sustained (P.track f a) := by
  refine ⟨?_, ?_, ?_⟩
  · cases a with
    | send entry p g => exact hS.followed_send hp g ha.toServer (ha.fits entry p g rfl)
    | fetch i g => exact hS.followed_fetch hp i g
    | lose i =>
      rw [track, if_neg (by rw [hS.followed.up]; decide)]
      cases hx : f.wire[i]? with
      | none =>
        rw [List.eraseIdx_of_length_le (List.getElem?_eq_none_iff.1 hx)]
        exact hS.followed
      | some x => exact (hS.followed.eraseWire hx).1
    | work h i reread => exact hS.followed_work hp h i reread
    | sweep h =>
      rw [track, if_neg (by rw [hS.followed.up]; decide)]
      have hF := hS.followed
      refine ⟨hF.up, fun k => ?_, hF.fits, hF.wire, hF.waiting, hF.delivered, hF.once, hF.known⟩
      dsimp only
      by_cases hk : k = h
      · subst hk
        rw [Function.update_self]
        exact .inl rfl
      · rw [Function.update_of_ne hk]
        exact hF.own k
  · rw [net_track]
    exact hS.toServer.step hp.joined ha.toServer
  · rw [net_track, ← step_mirror]
    exact hS.toClient.step hp.joined_mirror ha.toClient

end Sustained

/-- **The nodes are transparent.** On every run in which the endpoints send ordinary packets that
fit a buffer and no node loses a session that the other one relies on, neither node fails, no packet
is delivered twice, and every packet that is delivered has the data, the sequence number and the
other header fields and options of one that the other endpoint has sent. -/
theorem transparent_of_steady (P : Path) (hp : P.Paired) (l : List Action)
    (hl : Trace.Along P.track (fun f a => P.Steady f.net a) Flow.init l) :
    Trace.Always P.track Flow.Transparent Flow.init l := by
  have hsustained : Trace.Always P.track P.Sustained Flow.init l :=
    Trace.Always.of_step (fun f a hS ha => hS.step hp ha) sustained_init hl
  exact hsustained.mono fun f hS => hS.followed.transparent

/-! ## Connections that stay open -/

/-- Packets without a reset and without a FIN, also in a buffer that was returned, and no session
dies. -/
def StaysOpen (P : Path) : Action → Prop
  | .send entry p _ => P.FromEndpoint entry p ∧ p.totLen ≤ bufsize ∧ p.rst = false ∧ p.fin = false
  | .work _ _ reread => reread.rst = false ∧ reread.fin = false
  | .sweep _ => False
  | _ => True

theorem flags_of_fields {p m : Mem} (h : SameFields p m) (hi : 5 ≤ p.ihl)
    (hp : p.rst = false ∧ p.fin = false) :
    m.rst = false ∧ m.fin = false := by
  have hflags := (h.ends hi).flags
  unfold Mem.rst Mem.fin at hp ⊢
  rwa [hflags]

theorem mem_sent_track {a : Action} {e : Hop × Mem} (he : e ∈ (P.track f a).sent) :
    e ∈ f.sent ∨ ∃ g, a = .send e.1 e.2 g := by
  have hsettle :
    ∀ {f : Flow} {h : Hop} {x : Nat × Datagram} {packed : Prop} {unpacked : Verdict → Prop}
      {r : Exec (Option Session × Verdict)}, (f.settle h x packed unpacked r).sent = f.sent := by
    intro f h x packed unpacked r
    cases r <;> rfl
  by_cases hdown : f.down = true
  · have hsame : P.track f a = f := by cases a <;> exact if_pos hdown
    rw [hsame] at he
    exact .inl he
  cases a with
  | send entry p g =>
    rw [track, if_neg hdown, trackFetch, hsettle] at he
    rcases List.mem_append.1 he with he | he
    · exact .inl he
    · rw [List.mem_singleton.1 he]
      exact .inr ⟨g, rfl⟩
  | fetch i g =>
    rw [track, if_neg hdown] at he
    split at he
    · rw [trackFetch, hsettle] at he
      exact .inl he
    · exact .inl he
  | lose i =>
    rw [track, if_neg hdown] at he
    exact .inl he
  | work h i reread =>
    rw [track, if_neg hdown] at he
    split at he
    · rw [trackWork, hsettle] at he
      exact .inl he
    · exact .inl he
  | sweep h =>
    rw [track, if_neg hdown] at he
    exact .inl he

theorem not_closes_of_flags {p : Mem} (h : p.rst = false ∧ p.fin = false) (s : Session) :
    ¬ Closes p s := by
  rintro (hrst | ⟨hfin, -⟩)
  · exact absurd hrst (by rw [h.1]; decide)
  · exact absurd hfin (by rw [h.2]; decide)

theorem Sustained.not_endsSession (hS : P.Sustained f)
    (hopen : ∀ e ∈ f.sent, e.2.rst = false ∧ e.2.fin = false) {w : Waiting}
    (hw : w ∈ f.net.waiting h)
    {reread : Mem} (hreread : reread.rst = false ∧ reread.fin = false) (env : Env) (s : Session) :
    ¬ EndsSession env reread w.copy s := by
  obtain ⟨e, he, rfl⟩ := List.mem_map.1 hw
  obtain ⟨hcopy, -, -⟩ := hS.toServer.waiting h e.2 hw
  have hheld := hS.followed.waiting h e he
  have hflags : e.2.copy.rst = false ∧ e.2.copy.fin = false := by
    rw [hcopy]
    by_cases hentry : h = e.2.packet.entry
    · exact hopen _ (List.mem_of_getElem? (hheld.first hentry))
    · obtain ⟨p, os, hp, hos, hconveys⟩ := hheld.second hentry
      exact flags_of_fields hconveys.fields hos.wellFormed.ihl (hopen _ (List.mem_of_getElem? hp))
  rintro (hcloses | ⟨-, hcloses⟩)
  · exact not_closes_of_flags hflags s hcloses
  · exact not_closes_of_flags hreread s hcloses

theorem Sustained.steady (hS : P.Sustained f)
    (hopen : ∀ e ∈ f.sent, e.2.rst = false ∧ e.2.fin = false) {a : Action} (ha : P.StaysOpen a) :
    P.Steady f.net a := by
  cases a with
  | send entry p g =>
    refine ⟨ha.1, ⟨ha.1.key, ?_, ha.1.ordinary⟩, ?_⟩
    · rw [side_mirror, Hop.other_other]
      exact ha.1.side
    · rintro _ _ _ ⟨⟩
      exact ha.2.1
  | fetch i g => exact ⟨trivial, trivial, fun _ _ _ h => nomatch h⟩
  | lose i => exact ⟨trivial, trivial, fun _ _ _ h => nomatch h⟩
  | work h i reread =>
    refine ⟨?_, ?_, fun _ _ _ h => nomatch h⟩
    · cases h with
      | a => trivial
      | c =>
        intro w s hw _ hends
        exact absurd hends (hS.not_endsSession hopen (List.mem_of_getElem? hw) ha _ s)
    · cases h with
      | a =>
        intro w s hw _ hends
        obtain ⟨w', hw', rfl⟩ := List.mem_map.1 (List.mem_of_getElem? hw)
        exact absurd hends (hS.not_endsSession hopen hw' ha _ s)
      | c => trivial
  | sweep h => exact ha.elim

/-- **A connection that stays open is steady**, whatever happens between the nodes. -/
theorem along_steady_of_staysOpen (hp : P.Paired) {l : List Action} (hl : ∀ a ∈ l, P.StaysOpen a) :
    Trace.Along P.track (fun f a => P.Steady f.net a) Flow.init l := by
  have hstatic : Trace.Along P.track (fun _ a => P.StaysOpen a) Flow.init l := by
    generalize Flow.init = f
    induction l generalizing f with
    | nil => trivial
    | cons a l ih =>
      exact ⟨hl a List.mem_cons_self, ih (fun b hb => hl b (List.mem_cons_of_mem a hb)) _⟩
  refine Trace.Along.of_step (I := fun f => P.Sustained f ∧ ∀ e ∈ f.sent, e.2.rst = false ∧
    e.2.fin = false)
    (fun f a hI ha => ?_) ⟨sustained_init, fun _ he => absurd he List.not_mem_nil⟩ hstatic
  have hsteady := hI.1.steady hI.2 ha
  refine ⟨hsteady, hI.1.step hp hsteady, fun e he => ?_⟩
  rcases mem_sent_track he with he | ⟨g, rfl⟩
  · exact hI.2 e he
  · exact ha.2.2

end Path

theorem twoNodes_paired : twoNodes.Paired where
  largerIP := twoNodes_joined.largerIP
  running h := by cases h <;> rfl
  id h := by cases h <;> decide
  neighbor h := by cases h <;> decide
  qlz h := ⟨.x86, by cases h <;> rfl⟩

/-- A handshake and a segment that A compresses and C decompresses, all the way. -/
theorem transparent_twoNodes :
    twoNodes.Paired ∧ Trace.Always twoNodes.track Flow.Transparent Flow.init
    [.send .a clientSyn Path.plenty, .fetch 0 Path.plenty, .send .c serverSynAck Path.plenty,
      .fetch 0 Path.plenty, .send .a evenSegment Path.plenty, .work .a 0 clientSyn,
      .fetch 0 Path.plenty, .work .c 0 clientSyn] := by
  refine ⟨twoNodes_paired, twoNodes.transparent_of_steady twoNodes_paired _
    (Path.along_steady_of_staysOpen twoNodes_paired ?_)⟩
  have hflags : clientSyn.rst = false ∧ clientSyn.fin = false := by decide
  simp only [List.forall_mem_cons, Path.StaysOpen, true_and]
  exact ⟨⟨fromEndpoint_clientSyn, by decide, by decide, by decide⟩,
    ⟨fromEndpoint_serverSynAck, by decide, by decide, by decide⟩,
    ⟨twoNodes_compressible.fromClient, by decide, by decide, by decide⟩, hflags, hflags,
    fun _ h => absurd h List.not_mem_nil⟩

end Opennop
