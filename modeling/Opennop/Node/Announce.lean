import Opennop.Node.Records

/-!
# The announced and the recorded accelerator

A packet that announces a node which is no neighbor in state UP takes the branches for packets that
nobody has tagged: the worker's, and when its session is not known the fetcher's recovery. Both
record the local ID for the source's side and call `set_nod_header_data` with it. That call leaves a
header with data alone, so the packet goes on announcing the other node (`Carries.workerRecord`,
`Carries.fetcherRecord`), and the two agree only where that node is the local one.
-/

namespace Opennop

open Mem

/-! ## The accelerators of a session -/

namespace Session

def accel (s : Session) (side : Side) : OpennopId := (s.endpoint side).accelerator

variable (s : Session) (side : Side) (largerIP : Nat) (p : Mem)

@[simp] theorem accel_newSession (k : Key) (queue : Nat) :
    (newSession k queue).accel side = .zero := by
  cases side <;> rfl

@[simp] theorem accel_setState (state : TcpState) :
    (setState state s).accel side = s.accel side := by
  cases side <;> rfl

@[simp] theorem accel_sourceisclient : (sourceisclient largerIP p s).accel side = s.accel side := by
  unfold sourceisclient
  split
  · cases side <;> rfl
  · rfl

@[simp] theorem accel_updateseq : (updateseq largerIP p s).accel side = s.accel side := by
  unfold updateseq updateseqOf
  split
  · split
    · rfl
    · cases sourceSide largerIP p <;> cases side <;> rfl
  · rfl

theorem accel_saveacceleratorid (id : OpennopId) :
    (saveacceleratorid largerIP id p s).accel side =
      if largerIP ≠ 0 ∧ side = sourceSide largerIP p then id else s.accel side := by
  unfold saveacceleratorid
  by_cases h : largerIP ≠ 0
  · rw [if_pos h]
    cases sourceSide largerIP p <;> cases side <;> simp [h, accel, setEndpoint, endpoint]
  · rw [if_neg h, if_neg fun h' => h h'.1]

end Session

theorem SameEnds.key {p p' : Mem} (h : SameEnds p p') : p'.key = p.key := by
  unfold Mem.key
  rw [h.saddr, h.source, h.daddr, h.dest]

/-- What a reset or a FIN leaves of a session has the same accelerators. -/
theorem accel_endRecord {p : Mem} {s s' : Session} (h : endRecord p s = some s') (side : Side) :
    s'.accel side = s.accel side := by
  unfold endRecord at h
  split at h
  · cases h
  · split at h
    · split at h
      · cases h
        exact s.accel_setState side .closing
      · cases h
      · cases h
        rfl
    · cases h
      rfl

/-! ## The flag and the tag -/

/-- `tcp_compress` leaves the ends of a packet and the first option of each kind but the flag's. -/
theorem tcpCompress_keeps {p : Mem} {D : Nat} {os : List Opt} {d : List UInt8} (h : Shows p D os d)
    (ht : 4 * p.ihl + 4 * D + d.length < 65536) (q : Qlz) (compression lzbuffer state : Bool) :
    ∃ p' r D' os' d', tcpCompress q compression lzbuffer state p = .ok (p', r) ∧
      Shows p' D' os' d' ∧ SameEnds p p' ∧ firstOfKind nod os' = firstOfKind nod os := by
  by_cases ha : Attempted q compression lzbuffer state p
  · obtain ⟨p', hp', h', -, hends⟩ := tcpCompress_shows h ht ha
    exact ⟨p', 1, _, _, _, hp', h', hends,
      firstOfKind_setOption_ne (by decide) (by decide) [1] D os⟩
  · obtain ⟨r, hr⟩ := tcpCompress_unchanged ha
    exact ⟨p, r, D, os, d, hr, h, ⟨rfl, rfl, rfl, rfl, rfl, rfl, rfl⟩, rfl⟩

/-! ## Packets that carry the tag of another node -/

section Carries

variable {env : Env} {p : Mem} {os : List Opt} {f : OpennopId}

theorem inDomain_of_not_verified (h : verifyNeighborInDomain env.neighbors f = false) :
    inDomain env (some f) = none := by
  simp [inDomain, h]

theorem Carries.optimizeRecord (h : Carries env p os f) (s : Session) :
    ∃ s' q, Opennop.optimizeRecord env p s = .ok (s', q) ∧ 5 ≤ q.ihl ∧ SameEnds p q ∧
      remoteID env (checksum q) = .ok (some f) ∧
      ∀ side, s'.accel side = (saveacceleratorid p.key.largerIP env.id p s).accel side := by
  have hs := h.wellFormed.payload_shows
  have htot := totLen_lt p
  have hread : ∀ {q : Mem} {D : Nat} {os' : List Opt} {d : List UInt8}, Shows q D os' d →
      firstOfKind nod os' = firstOfKind nod os → remoteID env (checksum q) = .ok (some f) :=
    fun hq hf => h.announces hq.checksum hf
  unfold Opennop.optimizeRecord
  rw [h.setTag_eq, ok_bind]
  split
  · obtain ⟨q, r, D, os', d, hq, hshow, hends, hf⟩ := tcpCompress_keeps hs.1 (by omega) env.qlz
      env.compression true env.stateCompress
    rw [hq, ok_bind]
    exact ⟨_, q, rfl, hshow.ihl, hends, hread hshow hf, fun side => Session.accel_updateseq _ _ _ _⟩
  · exact ⟨_, p, rfl, hs.1.ihl, ⟨rfl, rfl, rfl, rfl, rfl, rfl, rfl⟩, hread hs.1 rfl,
      fun side => Session.accel_updateseq _ _ _ _⟩

variable (hf : verifyNeighborInDomain env.neighbors f = false)
  (hflags : ¬ p.syn ∧ p.ack ∧ ¬ p.fin)
include hf hflags

/-- **A worker passes the tag of an unknown node on** and records the local ID. -/
theorem Carries.workerRecord (h : Carries env p os f) (reread : Mem) (s : Session) :
    ∃ st q, Opennop.workerRecord env reread p (some s) = .ok (st, .accept q) ∧
      remoteID env q = .ok (some f) ∧
      ∀ s', st = some s' → p.key.largerIP ≠ 0 →
        s'.accel (sourceSide p.key.largerIP p) = env.id := by
  obtain ⟨s', q, hopt, -, -, hread, haccel⟩ := h.optimizeRecord s
  have hproc : processRecord env (some f) p s = .ok (s', q, true) := by
    unfold processRecord
    rw [if_pos hflags, inDomain_of_not_verified hf]
    dsimp only
    rw [hopt, ok_bind]
    rfl
  refine ⟨endRecord q s', checksum q, ?_, hread, fun s'' hs'' h0 => ?_⟩
  · unfold Opennop.workerRecord
    rw [h.remoteID_eq, ok_bind]
    dsimp only
    rw [hproc, ok_bind]
    rfl
  · rw [accel_endRecord hs'', haccel, Session.accel_saveacceleratorid, if_pos ⟨h0, rfl⟩]

/-- **The recovery of a session passes the tag of an unknown node on** and records the local ID. -/
theorem Carries.fetcherRecord (h : Carries env p os f) (hrun : env.running)
    (htcp : p.protocol = ipprotoTcp) {id : Nat} (hid : id ≠ 0) {ret : Nat} (hret : p.totLen ≤ ret)
    (new : Session) :
    ∃ s' q, Opennop.fetcherRecord env id ret true (some new) p none =
        .ok (some s', .deoptimize s'.queue q) ∧
      remoteID env q = .ok (some f) ∧
      (p.key.largerIP ≠ 0 → s'.accel (sourceSide p.key.largerIP p) = env.id) := by
  obtain ⟨hs, htot⟩ := h.wellFormed.payload_shows
  have hcut : Shows (p.cut ret) p.doff os p.payload := hs.cut (by unfold tcpOff; omega)
  refine ⟨saveacceleratorid p.key.largerIP env.id p (setState .established new), p.cut ret, ?_,
    h.announces hcut rfl, fun h0 => ?_⟩
  · unfold Opennop.fetcherRecord
    rw [if_pos hrun, if_pos ⟨htcp, hid⟩, h.remoteID_eq, ok_bind, if_neg fun hsyn => hflags.1 hsyn.1]
    dsimp only
    rw [if_pos hflags]
    unfold recoverRecord
    dsimp only
    rw [inDomain_of_not_verified hf]
    dsimp only
    rw [h.setTag_eq, ok_bind, pure_eq_ok, ok_bind]
    rfl
  · rw [Session.accel_saveacceleratorid, if_pos ⟨h0, rfl⟩]

end Carries

/-! ## On a table -/

section Table

variable {A : Type} [DecidableEq A] [Fintype A]

/-- The forwarded packet `q` announces the local node, and the table records the local node for the
side the packet came from. -/
def Agrees (env : Env) (p : Mem) (t : Table A) (q : Mem) : Prop :=
  remoteID env q = .ok (some env.id) ∧ ∀ s, t.sessionAt p.key = some s → p.key.largerIP ≠ 0 →
    s.accel (sourceSide p.key.largerIP p) = env.id

variable {env : Env} {p : Mem} {os : List Opt} {f : OpennopId} {t : Table A}

omit [DecidableEq A] in
/-- A packet that announces `f` agrees with a table that records the local node if `f` is that. -/
theorem agrees_iff {q : Mem} (hq : remoteID env q = .ok (some f))
    (ht : ∀ s, t.sessionAt p.key = some s → p.key.largerIP ≠ 0 →
      s.accel (sourceSide p.key.largerIP p) = env.id) : Agrees env p t q ↔ f = env.id := by
  unfold Agrees
  rw [hq, Except.ok.injEq, Option.some.injEq]
  exact and_iff_left ht

variable (hcard : Fintype.card A < 4294967296) (workers : Nat) (ht : Sound t)
  (h : Carries env p os f) (hf : verifyNeighborInDomain env.neighbors f = false)
  (hflags : ¬ p.syn ∧ p.ack ∧ ¬ p.fin)
include hcard ht h hf hflags

theorem Carries.workerThread (reread : Mem) {s : Session} (hs : t.sessionAt p.key = some s) :
    ∃ t' q, (Opennop.workerThread env reread p).exec workers none t = .ok (t', .accept q) ∧
      (Agrees env p t' q ↔ f = env.id) := by
  obtain ⟨st, q, hrec, hread, haccel⟩ := h.workerRecord hf hflags reread s
  rw [← hs] at hrec
  obtain ⟨t', hexec, -, hst, -⟩ :=
    Sound.Outcome.of_ok (Sound.workerThread hcard workers ht env reread p) hrec
  exact ⟨t', q, hexec, agrees_iff hread fun s' hs' => haccel s' (by rw [← hst, hs'])⟩

theorem Carries.fetcherCallback (hs : t.sessionAt p.key = none) (hrun : env.running)
    (htcp : p.protocol = ipprotoTcp) {id : Nat} (hid : id ≠ 0) {ret : Nat} (hret : p.totLen ≤ ret)
    {a : A} (ha : t.heap a = none) :
    ∃ t' queue q, (Opennop.fetcherCallback env id ret true p).exec workers (some a) t =
        .ok (t', .deoptimize queue q) ∧ (Agrees env p t' q ↔ f = env.id) := by
  have hfree : ∀ b, some a = some b → t.heap b = none := by
    rintro b ⟨⟩
    exact ha
  obtain ⟨s', q, hrec, hread, haccel⟩ := h.fetcherRecord hf hflags hrun htcp hid hret
    (newSession p.key (pickQueue workers t.sessions))
  rw [← hs] at hrec
  obtain ⟨t', hexec, -, hst, -⟩ :=
    Sound.Outcome.of_ok (Sound.fetcherCallback hcard workers ht env hfree id ret true p) hrec
  refine ⟨t', s'.queue, q, hexec, agrees_iff hread fun s hs => ?_⟩
  rw [hst, Option.some.injEq] at hs
  rw [← hs]
  exact haccel

/-- **The packet and the session agree on who tagged exactly when the packet came with the local
ID.** The worker and the recovery of a session by the fetcher, on a packet that carries the ID `f`
of no neighbor in state UP; every table that is reached is sound. -/
theorem forwarded_agrees_iff :
    (∀ reread s, t.sessionAt p.key = some s →
      ∃ t' q, (Opennop.workerThread env reread p).exec workers none t = .ok (t', .accept q) ∧
        (Agrees env p t' q ↔ f = env.id)) ∧
    ∀ (a : A) (id ret : Nat), t.sessionAt p.key = none → t.heap a = none → env.running →
      p.protocol = ipprotoTcp → id ≠ 0 → p.totLen ≤ ret →
      ∃ t' queue q, (Opennop.fetcherCallback env id ret true p).exec workers (some a) t =
          .ok (t', .deoptimize queue q) ∧ (Agrees env p t' q ↔ f = env.id) := by
  refine ⟨fun reread s hs => h.workerThread hcard workers ht hf hflags reread hs, ?_⟩
  intro a id ret hs ha hrun htcp hid hret
  exact h.fetcherCallback hcard workers ht hf hflags hs hrun htcp hid hret ha

end Table

theorem sessionAt_init (k : Key) : (initializeSessiontable (Fin 1)).sessionAt k = none := by
  refine Option.eq_none_iff_forall_ne_some.2 fun s hs => ?_
  obtain ⟨a, ha, -⟩ := Sound.init.sessionAt_eq_some.1 hs
  cases ha

/-- A segment whose only option is the tag of the node with the ID `id`. -/
def taggedSegment (id : OpennopId) : Mem := segment (tag id.bytes).encode

theorem carries_taggedSegment {id : OpennopId} (h : WellFormed (taggedSegment id) [tag id.bytes]) :
    Carries idleEnv (taggedSegment id) [tag id.bytes] id := by
  have hwf : WellFormed (taggedSegment id) ([] ++ tag id.bytes :: []) := h
  exact carries_tag hwf rfl

/-- A session that is recovered from a packet with the local ID. -/
theorem forwarded_agrees_local : ∃ (t' : Table (Fin 1)) (queue : Nat) (q : Mem),
    (fetcherCallback idleEnv 1 54 true (taggedSegment idleEnv.id)).exec 1 (some 0)
        (initializeSessiontable (Fin 1)) = .ok (t', .deoptimize queue q) ∧
      Agrees idleEnv (taggedSegment idleEnv.id) t' q := by
  have hwf : WellFormed (taggedSegment idleEnv.id) [tag idleEnv.id.bytes] := by decide
  obtain ⟨t', queue, q, hexec, hiff⟩ := (forwarded_agrees_iff (by decide) 1 Sound.init
    (carries_taggedSegment hwf) rfl (by decide)).2 0 1 54 (sessionAt_init _) rfl rfl
    (by decide) (by decide) (by decide)
  exact ⟨t', queue, q, hexec, hiff.2 rfl⟩

/-- A session that is recovered from a packet of the unknown node `9.9.9.9`. -/
theorem not_forwarded_agrees_foreign :
    Carries idleEnv (taggedSegment ⟨9, 9, 9, 9⟩) [tag [9, 9, 9, 9]] ⟨9, 9, 9, 9⟩ ∧
      verifyNeighborInDomain idleEnv.neighbors ⟨9, 9, 9, 9⟩ = false ∧
      ∃ (t' : Table (Fin 1)) (queue : Nat) (q : Mem),
        (fetcherCallback idleEnv 1 54 true (taggedSegment ⟨9, 9, 9, 9⟩)).exec 1 (some 0)
            (initializeSessiontable (Fin 1)) = .ok (t', .deoptimize queue q) ∧
          ¬ Agrees idleEnv (taggedSegment ⟨9, 9, 9, 9⟩) t' q := by
  have hwf : WellFormed (taggedSegment ⟨9, 9, 9, 9⟩) [tag [9, 9, 9, 9]] := by decide
  have hcarries := carries_taggedSegment hwf
  have hfree : (initializeSessiontable (Fin 1)).heap 0 = none := rfl
  obtain ⟨t', queue, q, hexec, hiff⟩ := hcarries.fetcherCallback (by decide) 1 Sound.init rfl
    (by decide) (sessionAt_init _) rfl (by decide) Nat.one_ne_zero (Nat.le_refl 54) hfree
  exact ⟨hcarries, rfl, t', queue, q, hexec, fun h => absurd (hiff.1 h) (by decide)⟩

end Opennop
