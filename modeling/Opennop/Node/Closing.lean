import Opennop.Lib.Trace
import Opennop.Node.Records
import Opennop.Node.Tags
import Opennop.Packet.Lengths

/-!
# Closing a connection

`closingsession` counts FINs: the first one takes the session to `TCP_CLOSING` and the second one
removes it, whichever endpoint they come from. `Watch` is the table with what the workers have seen
of one connection. While no endpoint repeats its FIN before the other one has sent its own, the
session stays until both have closed. One more thing must not happen: a packet that cannot be
decompressed is dropped and its buffer returned before its flags are read, so the FIN or the reset
may be one of another packet.
-/

namespace Opennop

open Mem

/-! ## The flags of a packet that is rewritten -/

section Flags

variable {p : Mem}

theorem SameHeader.sameFlags {p' : Mem} (h : SameHeader p p') : p'.flags = p.flags := by
  unfold Mem.flags
  rw [h.tcpOff, h _ (by unfold Mem.optOff; omega) (by omega) (by omega) (by omega)]

theorem replaceData_flags (hd : 5 ≤ p.doff) (data : List UInt8) :
    (replaceData p data).flags = p.flags ∧ (replaceData p data).doff = p.doff := by
  unfold replaceData
  dsimp only
  have hbelow : SameBelow p.optOff p (p.write p.dataOff (data.take (data.length % 65536))) :=
    SameBelow.write p _ (by unfold optOff dataOff; omega)
  obtain ⟨hh, hdoff, -⟩ := sameHeader_of_below hbelow
  generalize p.write p.dataOff (data.take (data.length % 65536)) = q at hh hdoff ⊢
  generalize (((q.totLen : Int) + (data.length % 65536 : Nat) - p.dataLen) % 65536).toNat = v
  have hset := sameHeader_setTotLen q v
  refine ⟨hset.sameFlags.trans hh.sameFlags, ?_⟩
  rw [← hdoff, Mem.doff, hset.tcpOff, Mem.doff]
  exact congrArg (fun b : UInt8 => b.toNat / 16) (setBe16_out q v (by omega))

theorem flags_setSeq (p : Mem) (v : Nat) : (p.setSeq v).flags = p.flags := by
  unfold Mem.flags
  rw [tcpOff_setSeq, setSeq_out p v (by omega)]

theorem setTag_flags (env : Env) (hd : 5 ≤ p.doff) :
    Post (setTag env p) fun p' => p'.flags = p.flags ∧ 5 ≤ p'.doff := by
  refine (setNodHeaderData_grown env.gap p hd (by decide) ?_).mono fun p' hp' => ?_
  · rw [OpennopId.length_bytes]
    decide
  · obtain ⟨g, hg⟩ := hp'
    exact ⟨hg.header.sameFlags, hg.five_le hd⟩

/-- Both `tcp_compress` and `tcp_decompress` replace the data, set the flag's option and the
sequence number. -/
theorem replaceData_setSeq_flags (hd : 5 ≤ p.doff) (data : List UInt8) (v : Nat) (seq : Mem → Nat)
    (n : Nat) :
    Post (do
      let (p, _) ← setTcpOption (replaceData p data) compressed 3 v
      return (p.setSeq (seq p), n)) fun r => r.1.flags = p.flags := by
  obtain ⟨hflags, hdoff⟩ := replaceData_flags hd data
  refine Post.bind (setTcpOption_grown _ (by rw [hdoff]; exact hd) compressed 3 v) fun r hr => ?_
  obtain ⟨g, hg⟩ := hr
  refine Post.ok ?_
  rw [flags_setSeq, hg.header.sameFlags, hflags]

theorem tcpCompress_flags (q : Qlz) (compression lzbuffer state : Bool) (hd : 5 ≤ p.doff) :
    Post (tcpCompress q compression lzbuffer state p) fun r => r.1.flags = p.flags := by
  unfold tcpCompress
  split
  · split
    · split
      · split
        · split
          · exact replaceData_setSeq_flags hd _ 1 (fun p => p.seq + 8000) 1
          · exact Post.ok rfl
        · exact Post.ok rfl
      · exact Post.ok rfl
    · exact Post.ok rfl
  · exact Post.ok rfl

theorem tcpDecompress_flags (q : Qlz) (lzbuffer state : Bool) (hd : 5 ≤ p.doff) :
    Post (tcpDecompress q lzbuffer state p) fun r => r.1.flags = p.flags := by
  unfold tcpDecompress
  split
  · split
    · split
      · exact replaceData_setSeq_flags hd _ 0 (fun p => p.seq + 4294959296) 1
      · exact Post.ok rfl
    · exact Post.ok rfl
  · exact Post.ok rfl

end Flags

/-! ## One packet -/

section Packet

variable {env : Env} {p : Mem} {s : Session}

theorem state_updateseq (largerIP : Nat) (p : Mem) (s : Session) :
    (updateseq largerIP p s).state = s.state := by
  unfold updateseq updateseqOf
  split
  · split
    · rfl
    · cases sourceSide largerIP p <;> rfl
  · rfl

theorem state_saveacceleratorid (largerIP : Nat) (id : OpennopId) (p : Mem) (s : Session) :
    (saveacceleratorid largerIP id p s).state = s.state := by
  unfold saveacceleratorid
  split
  · cases sourceSide largerIP p <;> rfl
  · rfl

theorem optimizeRecord_steady (hd : 5 ≤ p.doff) :
    Post (optimizeRecord env p s) fun r => r.1.state = s.state ∧ r.2.flags = p.flags := by
  unfold optimizeRecord
  refine Post.bind (setTag_flags env hd) fun p₁ hp₁ => ?_
  have hstate : (updateseq p.key.largerIP p₁ (saveacceleratorid p.key.largerIP env.id p s)).state =
      s.state := by
    rw [state_updateseq, state_saveacceleratorid]
  split
  · refine Post.bind (tcpCompress_flags _ _ _ _ hp₁.2) fun r hr => Post.ok ⟨hstate, ?_⟩
    rw [hr, hp₁.1]
  · exact Post.ok ⟨hstate, hp₁.1⟩

theorem deoptimizeRecord_steady (hd : 5 ≤ p.doff) (id : OpennopId) :
    Post (deoptimizeRecord env id p s) fun r => r.1.state = s.state ∧ r.2.1.flags = p.flags := by
  have hsaved := state_saveacceleratorid p.key.largerIP id p s
  unfold deoptimizeRecord
  refine Post.bind (P := fun _ => True) (fun _ _ => trivial) fun flag _ => ?_
  split
  · split
    · refine Post.bind (tcpDecompress_flags _ _ _ hd) fun r hr => ?_
      obtain ⟨p₁, result⟩ := r
      dsimp only at hr ⊢
      split
      · exact Post.ok ⟨hsaved, hr⟩
      · exact Post.ok ⟨(state_updateseq _ _ _).trans hsaved, hr⟩
    · exact Post.ok ⟨hsaved, rfl⟩
  · exact Post.ok ⟨(state_updateseq _ _ _).trans hsaved, rfl⟩

theorem processRecord_steady (hd : 5 ≤ p.doff) (remote : Option OpennopId) :
    Post (processRecord env remote p s) fun r => r.1.state = s.state ∧ r.2.1.flags = p.flags := by
  unfold processRecord
  split
  · split
    · refine Post.bind (optimizeRecord_steady hd) fun r hr => Post.ok hr
    · exact deoptimizeRecord_steady hd _
  · exact Post.ok ⟨rfl, rfl⟩

/-- A packet that is flagged as compressed but has no data to decompress, or no memory for it. When
the worker gets to its flags the buffer is back in the pool. -/
def GivenBack (env : Env) (p : Mem) : Prop :=
  (¬ p.syn ∧ p.ack ∧ ¬ p.fin) ∧ (∃ v, getTcpOption p compressed = .ok v ∧ v ≠ 0) ∧
    (env.stateDecompress = false ∨ p.protocol ≠ ipprotoTcp ∨ p.dataLen ≤ 0)

theorem tcpDecompress_fails (q : Qlz) (state : Bool) :
    Post (tcpDecompress q true state p) fun r =>
      r.2 = 0 → state = false ∨ p.protocol ≠ ipprotoTcp ∨ p.dataLen ≤ 0 := by
  unfold tcpDecompress
  split
  · split
    · split
      · refine Post.bind (P := fun _ => True) (fun _ _ => trivial) fun r _ => Post.ok fun h => ?_
        exact absurd h Nat.one_ne_zero
      · next hdata => exact Post.ok fun _ => .inr (.inr (not_lt.1 fun h => hdata ⟨h, rfl⟩))
    · next htcp => exact Post.ok fun _ => .inr (.inl htcp)
  · next hstate => exact Post.ok fun _ => .inl (Bool.eq_false_iff.2 hstate)

theorem processRecord_kept (remote : Option OpennopId) :
    Post (processRecord env remote p s) fun r => r.2.2 = false → GivenBack env p := by
  unfold processRecord
  split
  · next hflags =>
    split
    · exact Post.bind (P := fun _ => True) (fun _ _ => trivial) fun r _ =>
        Post.ok fun h => nomatch h
    · unfold deoptimizeRecord
      refine Post.bind (P := fun v => getTcpOption p compressed = .ok v) (fun _ h => h)
        fun v hv => ?_
      split
      · next hne =>
        split
        · refine Post.bind (tcpDecompress_fails env.qlz env.stateDecompress) fun r hr => ?_
          obtain ⟨p₁, result⟩ := r
          dsimp only at hr ⊢
          split
          · next hresult => exact Post.ok fun _ => ⟨hflags, ⟨v, hv, hne⟩, hr hresult⟩
          · exact Post.ok fun h => nomatch h
        · exact Post.ok fun h => nomatch h
      · exact Post.ok fun h => nomatch h
  · exact Post.ok fun h => nomatch h

/-- The state after a packet that is not a reset. -/
def nextState (p : Mem) (state : TcpState) : Option TcpState :=
  if p.fin then
    match state with
    | .established => some .closing
    | .closing => none
    | state => some state
  else some state

theorem nextState_other (h : p.fin = false) (state : TcpState) :
    nextState p state = some state := by
  unfold nextState
  rw [h]
  rfl

theorem nextState_established (h : p.fin = true) : nextState p .established = some .closing := by
  unfold nextState
  rw [h]
  rfl

theorem endRecord_state (hrst : p.rst = false) (s : Session) :
    (endRecord p s).map Session.state = nextState p s.state := by
  unfold endRecord nextState
  rw [if_neg (by simp [hrst])]
  cases p.fin with
  | false => rfl
  | true =>
    rw [if_pos rfl, if_pos rfl]
    cases hs : s.state with
    | established => rfl
    | closing => rfl
    | new => exact congrArg some hs
    | synSent => exact congrArg some hs

theorem nextState_congr {q : Mem} (h : q.fin = p.fin) : nextState q = nextState p := by
  unfold nextState
  rw [h]

/-- **A packet and the state of its session**, if a buffer that was returned shows neither a reset
nor a FIN. -/
theorem workerRecord_state {reread : Mem} (hd : 5 ≤ p.doff) (hrst : p.rst = false)
    (hreread : GivenBack env p → reread.rst = false ∧ reread.fin = false) :
    Post (workerRecord env reread p (some s)) fun r =>
      r.1.map Session.state = nextState p s.state := by
  unfold workerRecord
  refine Post.bind (P := fun _ => True) (fun _ _ => trivial) fun remote _ => ?_
  have hboth : Post (processRecord env remote p s) fun r => (r.1.state = s.state ∧
      r.2.1.flags = p.flags) ∧ (r.2.2 = false → GivenBack env p) := fun r h =>
    ⟨processRecord_steady hd remote r h, processRecord_kept remote r h⟩
  refine Post.bind hboth fun r hr => Post.ok ?_
  obtain ⟨s', p', kept⟩ := r
  obtain ⟨⟨hstate, hflags⟩, hback⟩ := hr
  dsimp only at hstate hflags hback ⊢
  rw [← hstate]
  cases kept with
  | true =>
    have hrst' : p'.rst = false := by
      rw [← hrst]
      unfold Mem.rst
      rw [hflags]
    have hfin : p'.fin = p.fin := by
      unfold Mem.fin
      rw [hflags]
    exact (endRecord_state hrst' s').trans (congrFun (nextState_congr hfin) _)
  | false =>
    obtain ⟨hrst', hfin'⟩ := hreread (hback rfl)
    have hfin : p.fin = false := Bool.eq_false_iff.2 (hback rfl).1.2.2
    exact (endRecord_state hrst' s').trans (congrFun (nextState_congr (hfin'.trans hfin.symm)) _)

end Packet

/-! ## The packets of a connection -/

/-- A pass of a worker: the packet, and what is in its buffer after the buffer was returned. -/
structure WorkerPass where
  env : Env
  packet : Mem
  reread : Mem

/-- The table, and what the workers have seen of one connection: which endpoints sent the FINs, the
latest first, whether there was a reset, and whether a worker has faulted. -/
structure Watch (A : Type) where
  table : Table A
  fins : List Side := []
  reset : Bool := false
  down : Bool := false

namespace Watch

variable {A : Type} [DecidableEq A] [Fintype A]

omit [DecidableEq A] [Fintype A] in
/-- The endpoints that have sent a FIN, after the packet `p`. -/
def addFin (p : Mem) (fins : List Side) : List Side :=
  if p.fin then sourceSide p.key.largerIP p :: fins else fins

omit [DecidableEq A] [Fintype A] in
theorem addFin_other {p : Mem} (h : p.fin = false) (fins : List Side) : addFin p fins = fins := by
  unfold addFin
  rw [h]
  rfl

omit [DecidableEq A] [Fintype A] in
theorem addFin_fin {p : Mem} (h : p.fin = true) (fins : List Side) :
    addFin p fins = sourceSide p.key.largerIP p :: fins := by
  unfold addFin
  rw [h]
  rfl

omit [DecidableEq A] [Fintype A] in
/-- What is known after a worker has handled `p`, from what became of the table. -/
def after (w : Watch A) (p : Mem) : Exec (Table A × Verdict) → Watch A
  | .error _ => { w with down := true }
  | .ok (t, _) => { table := t, fins := addFin p w.fins, reset := w.reset || p.rst }

def step (workers : Nat) (w : Watch A) (job : WorkerPass) : Watch A :=
  if w.down then w
  else w.after job.packet ((workerThread job.env job.reread job.packet).exec workers none w.table)

omit [DecidableEq A] [Fintype A] in
def stateAfter : List Side → TcpState
  | [] => .established
  | _ :: _ => .closing

omit [DecidableEq A] in
/-- The session is there until both endpoints have sent a FIN, in `TCP_CLOSING` from the first one
on. -/
def Orderly (k : Key) (w : Watch A) : Prop :=
  w.reset = false → ¬ (.larger ∈ w.fins ∧ .smaller ∈ w.fins) →
    ∃ s, w.table.sessionAt k = some s ∧ s.state = stateAfter w.fins

omit [DecidableEq A] [Fintype A] in
/-- A FIN comes before all others or after one of the other endpoint; the TCP header has its length;
and the buffer of a packet that cannot be decompressed shows no FIN and no reset that is not the
packet's own. -/
structure Alternates (w : Watch A) (job : WorkerPass) : Prop where
  doff : 5 ≤ job.packet.doff
  fin : job.packet.fin = true →
    w.fins = [] ∨ (sourceSide job.packet.key.largerIP job.packet).other ∈ w.fins
  reread : GivenBack job.env job.packet →
    job.reread.fin = false ∧ (job.reread.rst = true → job.packet.rst = true)

/-- If not both endpoints have closed after a FIN that alternates, it was the first one. -/
theorem first_of_alternates {fins : List Side} {side : Side} (halt : fins = [] ∨ side.other ∈ fins)
    (hboth : ¬ (.larger ∈ side :: fins ∧ .smaller ∈ side :: fins)) : fins = [] := by
  rcases halt with hnil | hother
  · exact hnil
  · refine absurd ?_ hboth
    cases side with
    | larger => exact ⟨List.mem_cons_self, List.mem_cons_of_mem _ hother⟩
    | smaller => exact ⟨List.mem_cons_of_mem _ hother, List.mem_cons_self⟩

variable (hcard : Fintype.card A < 4294967296) (workers : Nat)
include hcard

theorem exec_state {t t' : Table A} {env : Env} {reread p : Mem} {s : Session} {v : Verdict}
    (h : Sound t) (hs : t.sessionAt p.key = some s) (hd : 5 ≤ p.doff) (hrst : p.rst = false)
    (hreread : GivenBack env p → reread.fin = false ∧ (reread.rst = true → p.rst = true))
    (hexec : (workerThread env reread p).exec workers none t = .ok (t', v)) :
    (t'.sessionAt p.key).map Session.state = nextState p s.state := by
  obtain ⟨hrecord, -, -⟩ := (h.workerThread hcard workers env reread p).of_exec hexec
  rw [hs] at hrecord
  refine workerRecord_state hd hrst (fun hback => ?_) _ hrecord
  obtain ⟨hfin, himp⟩ := hreread hback
  refine ⟨Bool.eq_false_iff.2 fun h => ?_, hfin⟩
  rw [himp h] at hrst
  exact nomatch hrst

/-- **One packet.** -/
theorem orderly_step {w : Watch A} {job : WorkerPass} (hsound : Sound w.table)
    (h : w.Orderly job.packet.key) (halt : w.Alternates job) :
    Sound (w.step workers job).table ∧ (w.step workers job).Orderly job.packet.key := by
  obtain ⟨hd, hfins, hreread⟩ := halt
  obtain ⟨env, p, reread⟩ := job
  dsimp only at h hd hfins hreread ⊢
  unfold step
  by_cases hdown : w.down
  · rw [if_pos hdown]
    exact ⟨hsound, h⟩
  rw [if_neg hdown]
  have hworker := hsound.workerThread hcard workers env reread p
  generalize hexec : (workerThread env reread p).exec workers none w.table = x at hworker
  cases x with
  | error e => exact ⟨hsound, h⟩
  | ok r =>
    obtain ⟨t', v⟩ := r
    obtain ⟨-, hsound', -⟩ := hworker.of_exec rfl
    refine ⟨hsound', fun hreset hboth => ?_⟩
    dsimp only [after] at hreset hboth ⊢
    obtain ⟨hreset, hrst⟩ := Bool.or_eq_false_iff.1 hreset
    cases hfin : p.fin with
    | false =>
      rw [addFin_other hfin] at hboth ⊢
      obtain ⟨s, hs, hstate⟩ := h hreset hboth
      have hnext := exec_state hcard workers hsound hs hd hrst hreread hexec
      rw [nextState_other hfin, Option.map_eq_some_iff] at hnext
      obtain ⟨s', hs', hstate'⟩ := hnext
      exact ⟨s', hs', hstate'.trans hstate⟩
    | true =>
      rw [addFin_fin hfin] at hboth ⊢
      have hnil := first_of_alternates (hfins hfin) hboth
      obtain ⟨s, hs, hstate⟩ := h hreset (by simp [hnil])
      rw [hnil, stateAfter] at hstate
      have hnext := exec_state hcard workers hsound hs hd hrst hreread hexec
      rw [hstate, nextState_established hfin, Option.map_eq_some_iff] at hnext
      exact hnext

omit [DecidableEq A] [Fintype A] hcard in
/-- The state in which the session of a connection is established. -/
def opened (t : Table A) : Watch A := { table := t }

/-- **A connection is closed by both endpoints**, in every run of its packets in which no endpoint
repeats its FIN before the other one has sent its own, and no FIN or reset of another packet is read
from a buffer that was returned. -/
theorem orderly_always {k : Key} {t : Table A} {s : Session} (hsound : Sound t)
    (hs : t.sessionAt k = some s) (hstate : s.state = .established) {l : List WorkerPass}
    (hkeys : ∀ job ∈ l, job.packet.key = k)
    (halt : Trace.Along (step workers) Alternates (opened t) l) :
    Trace.Always (step workers) (Orderly k) (opened t) l := by
  have hstart : (opened t).Orderly k := fun _ _ => ⟨s, hs, hstate⟩
  have hsound' : Sound (opened t).table := hsound
  generalize opened t = w at halt hstart hsound'
  induction l generalizing w with
  | nil => exact hstart
  | cons job l ih =>
    obtain rfl := hkeys job List.mem_cons_self
    obtain ⟨hnext, horderly⟩ := orderly_step hcard workers hsound' hstart halt.1
    exact ⟨hstart, ih (fun j hj => hkeys j (List.mem_cons_of_mem job hj)) _ halt.2 horderly hnext⟩

end Watch

/-! ## Two FINs -/

/-- A FIN of one of two endpoints. -/
def finSegment (server : Bool) : Mem :=
  Mem.ofList ([0x45, 0, 0, 40, 0, 0, 0, 0, 64, 6, 0, 0] ++
    (if server then [10, 0, 0, 2, 10, 0, 0, 1, 0, 80, 0x30, 0x39]
      else [10, 0, 0, 1, 10, 0, 0, 2, 0x30, 0x39, 0, 80]) ++
    [0, 0, 0, 2, 0, 0, 0, 0, 0x50, 0x11, 0xff, 0xff, 0, 0, 0, 0])

/-- A worker gets it, and leaves the buffer as it is. -/
def finPass (server : Bool) : WorkerPass := ⟨idleEnv, finSegment server, finSegment server⟩

/-- The table after a handshake. -/
def established : Table Unit :=
  afterPacket 1 idleEnv 2 40 true bareSynAck none
    (afterPacket 1 idleEnv 1 40 true bareSyn (some ()) (initializeSessiontable Unit))

theorem sound_established : Sound established := by
  have hreach : Reaches 1 established none :=
    (Reaches.start.afterPacket (by decide +kernel)).afterPacket (by decide +kernel)
  exact (hreach.invariant (by decide)).1

theorem sessionAt_established : ∃ s, established.sessionAt (finSegment false).key = some s ∧
    s.state = .established := by
  have hstate : (established.sessionAt (finSegment false).key).map Session.state =
      some .established := by decide +kernel
  exact Option.map_eq_some_iff.1 hstate

namespace Watch

/-- A FIN of one endpoint that is followed by one of the other. -/
theorem orderly_always_twoFins : Sound established ∧
    (∃ s, established.sessionAt (finSegment false).key = some s ∧ s.state = .established) ∧
    Trace.Always (step 1) (Orderly (finSegment false).key) (opened established)
      [finPass false, finPass true] := by
  obtain ⟨s, hs, hstate⟩ := sessionAt_established
  have hfin : ∀ server, (finSegment server).fin = true := by decide
  refine ⟨sound_established, ⟨s, hs, hstate⟩, orderly_always (by decide) 1 sound_established hs
    hstate ?_ ⟨⟨by decide, fun _ => .inl rfl, fun h => absurd (hfin false) h.1.2.2⟩,
      ⟨by decide, fun _ => .inr (by decide +kernel), fun h => absurd (hfin true) h.1.2.2⟩, trivial⟩⟩
  simp only [List.forall_mem_cons]
  exact ⟨rfl, by decide, fun _ h => absurd h List.not_mem_nil⟩

/-- One endpoint that sends its FIN twice removes the session. -/
theorem not_orderly_repeatedFin : Sound established ∧
    (∃ s, established.sessionAt (finSegment false).key = some s ∧ s.state = .established) ∧
    ¬ Trace.Always (step 1) (Orderly (finSegment false).key) (opened established)
      [finPass false, finPass false] := by
  refine ⟨sound_established, sessionAt_established, fun halways => ?_⟩
  obtain ⟨s, hs, -⟩ := halways.last (by decide +kernel) (by decide +kernel)
  have hgone : ((Trace.run (step 1) (opened established)
      [finPass false, finPass false]).table.sessionAt (finSegment false).key).isNone := by
    decide +kernel
  rw [hs] at hgone
  cases hgone

end Watch

end Opennop
