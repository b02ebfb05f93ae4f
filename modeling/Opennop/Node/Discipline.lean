import Opennop.Node.Tags
import Opennop.Session.Sound

/-!
# One session for a connection

The fetcher is the only thread that inserts, and it inserts for a connection only after a lookup for
it that found nothing; the others change records without touching their keys, and remove them. So
however the calls of the fetcher are interleaved with those of the other threads, the table stays
sound. `fetcherCallback_about` and `workerThread_about` say that the two functions keep to the
discipline, `Reaches` are the interleaved runs.
-/

namespace Opennop

namespace Prog

/-! ## Changes of a record -/

theorem keeps_setState (state : TcpState) : Keeps (setState state) := fun _ => ⟨rfl, rfl⟩

theorem keeps_sourceisclient (largerIP : Nat) (p : Mem) : Keeps (sourceisclient largerIP p) := by
  intro s
  unfold sourceisclient
  split <;> exact ⟨rfl, rfl⟩

theorem keeps_saveacceleratorid (largerIP : Nat) (id : OpennopId) (p : Mem) :
    Keeps (saveacceleratorid largerIP id p) := by
  intro s
  unfold saveacceleratorid
  split
  · cases sourceSide largerIP p <;> exact ⟨rfl, rfl⟩
  · exact ⟨rfl, rfl⟩

theorem keeps_updateseq (largerIP : Nat) (p : Mem) : Keeps (updateseq largerIP p) := by
  intro s
  unfold updateseq updateseqOf
  split
  · split
    · exact ⟨rfl, rfl⟩
    · cases sourceSide largerIP p <;> exact ⟨rfl, rfl⟩
  · exact ⟨rfl, rfl⟩

/-! ## Steps of the discipline -/

section Steps

variable {A α β : Type} {C : Prop} {o : Option A} {k : Key}

theorem Holding.lift_bind {x : Exec α} {f : α → Prog A β} (hf : ∀ v, (f v).Holding C o) :
    ((liftM x : Prog A α) >>= f).Holding C o :=
  (Holding.ofExec o x).bind hf

theorem Holding.update_bind {a : A} {g : Session → Session} {f : Unit → Prog A β} (hg : Keeps g)
    (hf : (f ()).Holding C (some a)) : (update a g >>= f).Holding C (some a) :=
  .modify rfl hg hf

theorem Holding.load_bind {a : A} {f : Session → Prog A β} (hf : ∀ s, (f s).Holding C (some a)) :
    (load a >>= f).Holding C (some a) :=
  .read rfl hf

theorem About.lift_bind {x : Exec α} {f : α → Prog A β} (hf : ∀ v, (f v).About k) :
    ((liftM x : Prog A α) >>= f).About k := by
  cases x with
  | ok v => exact hf v
  | error e => exact .holding (.fault e)

theorem About.lookup_bind {f : Option A → Prog A β}
    (hsome : ∀ a, (f (some a)).Holding True (some a)) (hnone : (f none).Missing k) :
    (lookup k >>= f).About k :=
  .getsession hsome hnone

theorem Missing.insert_bind {f : Option A → Prog A β} (hf : ∀ r, (f r).Holding True r) :
    (insert k >>= f).Missing k :=
  .insertsession hf

end Steps

end Prog

open Prog

variable {A : Type} {C : Prop} (env : Env)

/-! ## The fetcher -/

section Fetcher

variable (remote : Option OpennopId) (a : A) (p : Mem)

theorem tagHandshake_holding : (tagHandshake env remote a p).Holding C (some a) := by
  unfold tagHandshake
  split
  · refine Holding.lift_bind fun r => ?_
    cases r with
    | none => exact .done _
    | some p' => exact Holding.update_bind (keeps_saveacceleratorid _ _ _) (.done _)
  · exact Holding.update_bind (keeps_saveacceleratorid _ _ _) (.done _)

theorem fetchSynOf_holding (r : Option A) : (fetchSynOf env remote p r).Holding C r := by
  cases r with
  | none => exact .done _
  | some a =>
    unfold fetchSynOf
    refine Holding.update_bind (keeps_sourceisclient _ _) ?_
    refine Holding.update_bind (keeps_updateseq _ _) ?_
    refine (tagHandshake_holding env remote a p).bind fun tagged => ?_
    exact Holding.update_bind (keeps_setState _) (.done _)

theorem fetchSyn_about : (fetchSyn env remote p : Prog A Verdict).About p.key := by
  unfold fetchSyn
  refine About.lookup_bind (fun a => ?_) ?_
  · exact fetchSynOf_holding env remote p (some a)
  · exact Missing.insert_bind (fetchSynOf_holding env remote p)

theorem fetchSynAck_holding : (fetchSynAck env remote a p).Holding C (some a) := by
  unfold fetchSynAck
  refine Holding.update_bind (keeps_updateseq _ _) ?_
  refine (tagHandshake_holding env remote a p).bind fun tagged => ?_
  exact Holding.update_bind (keeps_setState _) (.done _)

theorem fetchData_holding (ret : Nat) (buffer : Bool) :
    (fetchData env remote ret buffer a p).Holding C (some a) := by
  unfold fetchData
  split
  · refine Holding.load_bind fun s => ?_
    split <;> exact .done _
  · exact .done _

theorem recoverTag_holding (id : OpennopId) : (recoverTag env id a p).Holding C (some a) := by
  unfold recoverTag
  split
  · exact Holding.update_bind (keeps_saveacceleratorid _ _ _) (.done _)
  · refine Holding.lift_bind fun q => ?_
    exact Holding.update_bind (keeps_saveacceleratorid _ _ _) (.done _)

theorem fetchRecover_missing (id : OpennopId) (ret : Nat) (buffer : Bool) :
    (fetchRecover env id ret buffer p : Prog A Verdict).Missing p.key := by
  unfold fetchRecover
  refine Missing.insert_bind fun r => ?_
  cases r with
  | none => exact .done _
  | some a =>
    refine Holding.update_bind (keeps_setState _) ?_
    refine (recoverTag_holding env a p id).bind fun q => ?_
    split
    · exact Holding.load_bind fun s => .done _
    · exact .done _

/-- **The fetcher keeps to the discipline** for the connection of its packet. -/
theorem fetcherCallback_about (id ret : Nat) (buffer : Bool) :
    (fetcherCallback env id ret buffer p : Prog A Verdict).About p.key := by
  unfold fetcherCallback
  split
  · split
    · refine About.lift_bind fun remote => ?_
      split
      · exact fetchSyn_about env remote p
      · refine About.lookup_bind (fun a => ?_) ?_
        · dsimp only
          split
          · exact fetchSynAck_holding env remote a p
          · exact fetchData_holding env remote a p ret buffer
        · cases remote with
          | none => exact .holding (.done _)
          | some id =>
            dsimp only
            split
            · exact fetchRecover_missing env p id ret buffer
            · exact .holding (.done _)
    · exact .holding (.done _)
  · exact .holding (.done _)

end Fetcher

/-! ## The workers -/

section Worker

variable (a : A) (k : Key) (p : Mem)

theorem optimizePacket_holding : (optimizePacket env a k p).Holding C (some a) := by
  unfold optimizePacket
  refine Holding.update_bind (keeps_saveacceleratorid _ _ _) ?_
  refine Holding.lift_bind fun q => ?_
  refine Holding.load_bind fun s => ?_
  split
  · refine Holding.update_bind (keeps_updateseq _ _) ?_
    exact Holding.lift_bind fun r => .done _
  · exact Holding.update_bind (keeps_updateseq _ _) (.done _)

theorem deoptimizePacket_holding (id : OpennopId) :
    (deoptimizePacket env id a k p).Holding C (some a) := by
  unfold deoptimizePacket
  refine Holding.update_bind (keeps_saveacceleratorid _ _ _) ?_
  refine Holding.lift_bind fun flag => ?_
  split
  · refine Holding.load_bind fun s => ?_
    split
    · refine Holding.lift_bind fun r => ?_
      dsimp only
      split
      · exact .done _
      · exact Holding.update_bind (keeps_updateseq _ _) (.done _)
    · exact .done _
  · exact Holding.update_bind (keeps_updateseq _ _) (.done _)

theorem processPacket_holding (remote : Option OpennopId) :
    (processPacket env remote a p).Holding C (some a) := by
  unfold processPacket
  split
  · split
    · exact (optimizePacket_holding env a p.key p).bind fun q => .done _
    · exact deoptimizePacket_holding env a p.key p _
  · exact .done _

/-- The verdict follows when the session is gone. -/
theorem endSession_holding (v : Verdict) :
    (endSession a p >>= fun _ => .done v).Holding True (some a) := by
  unfold endSession
  split
  · exact .clearsession trivial rfl v
  · split
    · refine .read rfl fun s => ?_
      dsimp only [Prog.bind]
      split
      · exact .modify rfl (keeps_setState _) (.done v)
      · exact .clearsession trivial rfl v
      · exact .done v
    · exact .done v

/-- **The workers keep to the discipline** for the connection of their packet. -/
theorem workerThread_about (reread : Mem) :
    (workerThread env reread p : Prog A Verdict).About p.key := by
  unfold workerThread
  refine About.lift_bind fun remote => ?_
  refine About.lookup_bind (fun a => ?_) (.holding (.done _))
  refine (processPacket_holding env a p remote).bind fun r => ?_
  dsimp only
  split
  · exact endSession_holding a _ _
  · exact endSession_holding a _ _

end Worker

/-! ## Interleaved runs -/

section Interleaving

variable [DecidableEq A] [Fintype A] (workers : Nat)

/-- The tables that are reached, with what the fetcher still has to do for the packet it is at. Any
node may hand it the next packet; between any two of its calls other threads remove a session, sweep
a bucket or change a record. -/
inductive Reaches : Table A → Option (Prog A Verdict) → Prop
  | start : Reaches (initializeSessiontable A) none
  | packet {t : Table A} (env : Env) (id ret : Nat) (buffer : Bool) (p : Mem) :
    Reaches t none → Reaches t (some (fetcherCallback env id ret buffer p))
  | call {t t' : Table A} {c c' : Prog A Verdict} :
    Reaches t (some c) → Calls workers t c t' c' → Reaches t' (some c')
  | verdict {t : Table A} {v : Verdict} : Reaches t (some (.done v)) → Reaches t none
  | remove {t t' : Table A} {c : Option (Prog A Verdict)} {a : A} {n : Node A} :
    Reaches t c → t.heap a = some n → clearsession t a = .ok t' → Reaches t' c
  | sweep {t t' : Table A} {c : Option (Prog A Verdict)} {b : Nat} :
    Reaches t c → cleanuplist t b = .ok t' → Reaches t' c
  | change {t t' : Table A} {c : Option (Prog A Verdict)} {a : A} {f : Session → Session} :
    Reaches t c → Keeps f → t.modify a f = .ok t' → Reaches t' c

/-- What is known of the fetcher in the middle of a packet: after a lookup that found nothing there
is still no session of that connection. -/
inductive Pending (t : Table A) : Prog A Verdict → Prop
  | about {k : Key} {c : Prog A Verdict} : c.About k → Pending t c
  | missing {k : Key} {c : Prog A Verdict} :
    c.Missing k → (∀ a s, t.record a = some s → s.key ≠ k) → Pending t c
  | holding {o : Option A} {c : Prog A Verdict} : c.Holding True o → Pending t c

variable {workers} {t t' : Table A} {c c' : Prog A Verdict}

omit [DecidableEq A] [Fintype A] in
theorem Pending.mono (h : Pending t c) (hrec : ∀ {a : A} {s' : Session}, t'.record a = some s' →
    ∃ s, t.record a = some s ∧ s.key = s'.key) : Pending t' c := by
  cases h with
  | about h => exact .about h
  | missing h hk =>
    refine .missing h fun a s' hs' => ?_
    obtain ⟨s, hs, hkey⟩ := hrec hs'
    rw [← hkey]
    exact hk a s hs
  | holding h => exact .holding h

theorem holding_call {o : Option A} (hcard : Fintype.card A < 4294967296) (h : Sound t)
    (hc : c.Holding True o) (hcall : Calls workers t c t' c') : Sound t' ∧ Pending t' c' := by
  cases hc with
  | done x => cases hcall
  | fault e => cases hcall
  | read ha hnext =>
    cases hcall
    exact ⟨h, .holding (hnext _)⟩
  | @modify a f next ha hf hnext =>
    obtain ⟨⟩ | ⟨⟩ | ⟨⟩ | ⟨hmod⟩ | ⟨⟩ := hcall
    cases hr : t.record a with
    | none => simp [Table.modify, Table.load, Table.record_eq_none.1 hr] at hmod
    | some s =>
      obtain ⟨t₁, ht₁, h₁, -⟩ := h.modify hr hf
      rw [ht₁, Except.ok.injEq] at hmod
      exact ⟨hmod ▸ h₁, .holding hnext⟩
  | @clearsession a _ ha x =>
    obtain ⟨⟩ | ⟨⟩ | ⟨⟩ | ⟨⟩ | ⟨hclear⟩ := hcall
    cases hr : t.record a with
    | none => simp [clearsession, Table.load, Table.record_eq_none.1 hr] at hclear
    | some s =>
      obtain ⟨t₁, ht₁, h₁, -⟩ := h.clearsession hcard hr
      rw [ht₁, Except.ok.injEq] at hclear
      exact ⟨hclear ▸ h₁, .holding (o := none) (.done x)⟩

/-- **One call of the fetcher** keeps the table sound. -/
theorem Pending.call (hcard : Fintype.card A < 4294967296) (h : Sound t) (hc : Pending t c)
    (hcall : Calls workers t c t' c') : Sound t' ∧ Pending t' c' := by
  cases hc with
  | about hc =>
    cases hc with
    | holding hc => exact holding_call hcard h hc hcall
    | getsession hsome hnone =>
      obtain ⟨hget⟩ | ⟨⟩ | ⟨⟩ | ⟨⟩ | ⟨⟩ := hcall
      obtain ⟨r', hr', hiff⟩ := h.getsession_ok _
      rw [hr', Except.ok.injEq] at hget
      subst hget
      cases r' with
      | some a => exact ⟨h, .holding (hsome a)⟩
      | none => exact ⟨h, .missing hnone fun a s hs hk => nomatch (hiff a).2 ⟨s, hs, hk⟩⟩
  | missing hc hk =>
    cases hc with
    | holding hc => exact holding_call hcard h hc hcall
    | insertsession hnext =>
      cases hcall with
      | @insertsession _ _ _ calloc r hfree hins =>
      cases calloc with
      | none =>
        cases hins
        exact ⟨h, .holding (hnext _)⟩
      | some a =>
        obtain ⟨t₁, ht₁, h₁, -⟩ := h.insertsession hcard (hfree a rfl) hk workers
        rw [ht₁] at hins
        cases hins
        exact ⟨h₁, .holding (hnext _)⟩
  | holding hc => exact holding_call hcard h hc hcall

theorem Reaches.invariant (hcard : Fintype.card A < 4294967296) {c : Option (Prog A Verdict)}
    (h : Reaches workers t c) : Sound t ∧ ∀ c', c = some c' → Pending t c' := by
  induction h with
  | start => exact ⟨Sound.init, fun c' h => nomatch h⟩
  | packet env id ret buffer p _ ih =>
    refine ⟨ih.1, fun c' h => ?_⟩
    rw [← Option.some.inj h]
    exact .about (fetcherCallback_about env p id ret buffer)
  | call _ hcall ih =>
    obtain ⟨h', hp⟩ := (ih.2 _ rfl).call hcard ih.1 hcall
    exact ⟨h', fun c' h => by rwa [← Option.some.inj h]⟩
  | verdict _ ih => exact ⟨ih.1, fun c' h => nomatch h⟩
  | @remove t t' c a n _ hn hclear ih =>
    obtain ⟨h, hp⟩ := ih
    obtain ⟨t₁, ht₁, h₁, hself, hother⟩ :=
      h.clearsession hcard (Table.record_eq_some.2 ⟨n, hn, rfl⟩)
    rw [ht₁, Except.ok.injEq] at hclear
    subst hclear
    refine ⟨h₁, fun c' hc' => (hp c' hc').mono fun {b s'} hs' => ?_⟩
    by_cases hba : b = a
    · rw [hba, hself] at hs'
      cases hs'
    · rw [hother b hba] at hs'
      exact ⟨s', hs', rfl⟩
  | @sweep t t' c b _ hsweep ih =>
    obtain ⟨h, hp⟩ := ih
    obtain ⟨t₁, ht₁, h₁, hiff⟩ := h.cleanuplist hcard b
    rw [ht₁, Except.ok.injEq] at hsweep
    subst hsweep
    refine ⟨h₁, fun c' hc' => (hp c' hc').mono fun {a s'} hs' => ?_⟩
    obtain ⟨s, hs, hif⟩ := (hiff a s').1 hs'
    refine ⟨s, hs, ?_⟩
    split at hif
    · rw [hif.2]
      rfl
    · rw [hif]
  | @change t t' c a f _ hf hmod ih =>
    obtain ⟨h, hp⟩ := ih
    cases hr : t.record a with
    | none => simp [Table.modify, Table.load, Table.record_eq_none.1 hr] at hmod
    | some s =>
      obtain ⟨t₁, ht₁, h₁, hself, hother⟩ := h.modify hr hf
      rw [ht₁, Except.ok.injEq] at hmod
      subst hmod
      refine ⟨h₁, fun c' hc' => (hp c' hc').mono fun {b s'} hs' => ?_⟩
      by_cases hba : b = a
      · rw [hba, hself, Option.some.injEq] at hs'
        exact ⟨s, hba ▸ hr, by rw [← hs', (hf s).1]⟩
      · rw [hother b hba] at hs'
        exact ⟨s', hs', rfl⟩

/-! ## A packet without interruption -/

theorem Reaches.exec_holding {calloc o : Option A} {v : Verdict} (h : Reaches workers t (some c))
    (hc : c.Holding True o) (hexec : c.exec workers calloc t = .ok (t', v)) :
    Reaches workers t' none := by
  induction hc generalizing t with
  | done x =>
    cases hexec
    exact h.verdict
  | fault e => cases hexec
  | read _ _ ih =>
    obtain ⟨n, hn, hrest⟩ := bind_eq_ok.1 hexec
    exact ih n.session (h.call (.read hn)) hrest
  | modify _ _ _ ih =>
    obtain ⟨t₁, ht₁, hrest⟩ := bind_eq_ok.1 hexec
    exact ih (h.call (.modify ht₁)) hrest
  | clearsession _ _ x =>
    obtain ⟨t₁, ht₁, hrest⟩ := bind_eq_ok.1 hexec
    cases hrest
    exact (h.call (.clearsession ht₁)).verdict

theorem Reaches.exec_about {calloc : Option A} {v : Verdict} {k : Key}
    (h : Reaches workers t (some c)) (hc : c.About k)
    (hfree : ∀ a, calloc = some a → t.heap a = none)
    (hexec : c.exec workers calloc t = .ok (t', v)) : Reaches workers t' none := by
  cases hc with
  | holding hc => exact h.exec_holding hc hexec
  | @getsession next hsome hnone =>
    obtain ⟨r, hr, hrest⟩ := bind_eq_ok.1 hexec
    have hnext := h.call (.getsession hr)
    cases r with
    | some a => exact hnext.exec_holding (hsome a) hrest
    | none =>
      generalize next none = c at hnone hnext hrest
      cases hnone with
      | holding hc => exact hnext.exec_holding hc hrest
      | insertsession hins =>
        obtain ⟨⟨t₁, r⟩, ht₁, hrest⟩ := bind_eq_ok.1 hrest
        exact (hnext.call (.insertsession hfree ht₁)).exec_holding (hins r) hrest

/-- The table when the fetcher has handled a packet without interruption. -/
def afterPacket (workers : Nat) (env : Env) (id ret : Nat) (buffer : Bool) (p : Mem)
    (calloc : Option A) (t : Table A) : Table A :=
  match (fetcherCallback env id ret buffer p).exec workers calloc t with
  | .ok (t', _) => t'
  | .error _ => t

theorem Reaches.afterPacket {env : Env} {id ret : Nat} {buffer : Bool} {p : Mem} {calloc : Option A}
    (h : Reaches workers t none) (hfree : ∀ a, calloc = some a → t.heap a = none) :
    Reaches workers (afterPacket workers env id ret buffer p calloc t) none := by
  unfold Opennop.afterPacket
  split
  · next hexec =>
    exact (h.packet env id ret buffer p).exec_about (fetcherCallback_about env p id ret buffer)
      hfree hexec
  · exact h

end Interleaving

/-! ## Both directions -/

/-- The key does not depend on the direction. -/
theorem sortSockets_comm {saddr daddr : Nat} (h : saddr ≠ daddr) (source dest : Nat) :
    sortSockets daddr dest saddr source = sortSockets saddr source daddr dest := by
  unfold sortSockets
  rcases Nat.lt_or_gt_of_ne h with hlt | hgt
  · rw [if_pos hlt, if_neg (Nat.lt_asymm hlt)]
  · rw [if_neg (Nat.lt_asymm hgt), if_pos hgt]

/-- **One session for a connection, found from both sides**, in every table that is reached. -/
theorem one_session_per_connection [DecidableEq A] [Fintype A]
    (hcard : Fintype.card A < 4294967296) {workers : Nat} {t : Table A}
    {c : Option (Prog A Verdict)} (h : Reaches workers t c) :
    (∀ a b n m, t.heap a = some n → t.heap b = some m → n.session.key = m.session.key → a = b) ∧
      ∀ p p' : Mem, p.saddr ≠ p.daddr → p'.saddr = p.daddr → p'.source = p.dest →
        p'.daddr = p.saddr → p'.dest = p.source →
        p'.key = p.key ∧ ∃ r, getsession t p.key = .ok r ∧ getsession t p'.key = .ok r := by
  obtain ⟨hs, -⟩ := h.invariant hcard
  refine ⟨fun a b n m ha hb hkey => ?_, fun p p' hne hsaddr hsource hdaddr hdest => ?_⟩
  · exact hs.unique (Table.record_eq_some.2 ⟨n, ha, rfl⟩) (Table.record_eq_some.2 ⟨m, hb, rfl⟩) hkey
  · have hkey : p'.key = p.key := by
      unfold Mem.key
      rw [hsaddr, hsource, hdaddr, hdest, sortSockets_comm hne]
    exact ⟨hkey, _, hs.getsession_eq _, by rw [hkey]; exact hs.getsession_eq _⟩

def idleEnv : Env := ⟨true, ⟨1, 2, 3, 4⟩, [], 0, true, true, true, ⟨id, fun _ => []⟩⟩

def bareSyn : Mem :=
  Mem.ofList [0x45, 0, 0, 40, 0, 0, 0, 0, 64, 6, 0, 0, 10, 0, 0, 1, 10, 0, 0, 2,
    0x30, 0x39, 0, 80, 0, 0, 0, 1, 0, 0, 0, 0, 0x50, 2, 0xff, 0xff, 0, 0, 0, 0]

def otherSyn : Mem :=
  Mem.ofList [0x45, 0, 0, 40, 0, 0, 0, 0, 64, 6, 0, 0, 10, 0, 0, 1, 10, 0, 0, 2,
    0x30, 0x3a, 0, 80, 0, 0, 0, 1, 0, 0, 0, 0, 0x50, 2, 0xff, 0xff, 0, 0, 0, 0]

/-- The server's answer to `bareSyn`. -/
def bareSynAck : Mem :=
  Mem.ofList [0x45, 0, 0, 40, 0, 0, 0, 0, 64, 6, 0, 0, 10, 0, 0, 2, 10, 0, 0, 1,
    0, 80, 0x30, 0x39, 0, 0, 0, 1, 0, 0, 0, 2, 0x50, 0x12, 0xff, 0xff, 0, 0, 0, 0]

def twoSessions : Table (Fin 2) :=
  afterPacket 1 idleEnv 2 40 true otherSyn (some 1)
    (afterPacket 1 idleEnv 1 40 true bareSyn (some 0) (initializeSessiontable (Fin 2)))

/-- Two connections have two sessions, and the server's packet finds the one of its client. -/
theorem one_session_per_connection_twoSessions :
    Reaches 1 twoSessions none ∧ twoSessions.heap 0 ≠ none ∧ twoSessions.heap 1 ≠ none ∧
      (∀ a b n m, twoSessions.heap a = some n → twoSessions.heap b = some m →
        n.session.key = m.session.key → a = b) ∧
      (bareSynAck.key = bareSyn.key ∧ ∃ r, getsession twoSessions bareSyn.key = .ok r ∧
        getsession twoSessions bareSynAck.key = .ok r) ∧
      getsession twoSessions bareSynAck.key = .ok (some 0) := by
  have hreach : Reaches 1 twoSessions none :=
    (Reaches.start.afterPacket (by decide +kernel)).afterPacket (by decide +kernel)
  obtain ⟨hunique, hboth⟩ := one_session_per_connection (by decide) hreach
  refine ⟨hreach, by decide +kernel, by decide +kernel, hunique,
    hboth bareSyn bareSynAck (by decide) (by decide) (by decide) (by decide) (by decide),
    by decide +kernel⟩

end Opennop
