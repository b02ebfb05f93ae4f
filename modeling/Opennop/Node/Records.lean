import Opennop.Node.Discipline

/-!
# What the fetcher and the workers do to one connection

`fetcherRecord` and `workerRecord` are `fetcherCallback` and `workerThread` without the table: the
record of the packet's connection goes in, the record it has afterwards comes out with the verdict.
`Sound.fetcherCallback` and `Sound.workerThread` say that on a sound table the two functions do
exactly this, and leave every other connection alone.
-/

namespace Opennop

open Prog

/-! ## The fetcher -/

/-- A handshake packet: the record, and the packet when it was tagged. -/
def handshakeRecord (env : Env) (remote : Option OpennopId) (p : Mem) (s : Session) :
    Exec (Session × Option Mem) :=
  match inDomain env remote with
  | none => do
    match ← lowerMss env p with
    | some p' => return (saveacceleratorid p.key.largerIP env.id p' s, some p')
    | none => return (s, none)
  | some id => return (saveacceleratorid p.key.largerIP id p s, none)

def synRecord (env : Env) (remote : Option OpennopId) (p : Mem) :
    Option Session → Exec (Option Session × Verdict)
  | none => return (none, .accept p)
  | some s => do
    let (s, tagged) ← handshakeRecord env remote p
      (updateseq p.key.largerIP p (sourceisclient p.key.largerIP p s))
    return (some (setState .synSent s), .accept ((tagged.map checksum).getD p))

def synAckRecord (env : Env) (remote : Option OpennopId) (p : Mem) (s : Session) :
    Exec (Option Session × Verdict) := do
  let (s, tagged) ← handshakeRecord env remote p (updateseq p.key.largerIP p s)
  return (some (setState .established s), .accept (checksum (tagged.getD p)))

/-- Where the copy of a packet goes. -/
def dataVerdict (env : Env) (remote : Option OpennopId) (ret : Nat) (buffer : Bool) (p : Mem)
    (queue : Nat) : Verdict :=
  if buffer then
    match inDomain env remote with
    | none => .optimize queue (p.cut ret)
    | some _ => .deoptimize queue (p.cut ret)
  else .stuck

def recoverRecord (env : Env) (remote : OpennopId) (ret : Nat) (buffer : Bool) (p : Mem) :
    Option Session → Exec (Option Session × Verdict)
  | none => return (none, .accept p)
  | some s => do
    let s := setState .established s
    let (s, p) ←
      match inDomain env (some remote) with
      | some id => pure (saveacceleratorid p.key.largerIP id p s, p)
      | none => do
        let p' ← setTag env p
        pure (saveacceleratorid p.key.largerIP env.id p' s, p')
    return (some s, if buffer then .deoptimize s.queue (p.cut ret) else .stuck)

/-- `fetcherCallback` for one connection; `new` is the record that an insertion makes, if there is
memory for it. -/
def fetcherRecord (env : Env) (id ret : Nat) (buffer : Bool) (new : Option Session) (p : Mem)
    (st : Option Session) : Exec (Option Session × Verdict) :=
  if env.running then
    if p.protocol = ipprotoTcp ∧ id ≠ 0 then do
      let remote ← remoteID env p
      if p.syn ∧ ¬ p.ack then synRecord env remote p (st.or new)
      else
        match st with
        | some s =>
          if p.syn ∧ p.ack then synAckRecord env remote p s
          else return (some s, dataVerdict env remote ret buffer p s.queue)
        | none =>
          match remote with
          | some remote =>
            if ¬ p.syn ∧ p.ack ∧ ¬ p.fin then recoverRecord env remote ret buffer p new
            else return (none, .accept p)
          | none => return (none, .accept p)
    else return (st, .acceptOriginal)
  else return (st, .acceptOriginal)

/-- **The cases of `fetcher_callback`** for a packet with the tag `remote`. -/
theorem fetcherRecord_cases {P : Exec (Option Session × Verdict) → Prop} {env : Env} {p : Mem}
    {remote : Option OpennopId} (hr : remoteID env p = .ok remote) (id ret : Nat) (buffer : Bool)
    {new st : Option Session} (horiginal : P (.ok (st, .acceptOriginal)))
    (hpass : (∀ s, st ≠ some s) → P (.ok (none, .accept p)))
    (hsyn : ∀ s, st.or new = some s → P (synRecord env remote p (some s)))
    (hsynAck : ∀ s, st = some s → P (synAckRecord env remote p s))
    (hdata : ∀ s, st = some s → P (.ok (some s, dataVerdict env remote ret buffer p s.queue)))
    (hrecover : ∀ id s, remote = some id → st = none → new = some s →
      P (recoverRecord env id ret buffer p (some s))) :
    P (fetcherRecord env id ret buffer new p st) := by
  unfold fetcherRecord
  split
  · split
    · rw [hr, ok_bind]
      split
      · cases hor : st.or new with
        | none =>
          refine hpass fun s hs => ?_
          rw [hs] at hor
          cases hor
        | some s => exact hsyn s hor
      · cases st with
        | some s =>
          dsimp only
          split
          · exact hsynAck s rfl
          · exact hdata s rfl
        | none =>
          cases remote with
          | none => exact hpass nofun
          | some remote =>
            dsimp only
            split
            · cases new with
              | none => exact hpass nofun
              | some s => exact hrecover remote s rfl rfl rfl
            · exact hpass nofun
    · exact horiginal
  · exact horiginal

section Fetcher

variable {A : Type} (env : Env) (remote : Option OpennopId) (p : Mem)

theorem tagHandshake_onRecord (a : A) (s : Session) :
    (tagHandshake env remote a p).onRecord (some s) = (do
      let r ← handshakeRecord env remote p s
      return (some r.1, r.2)) := by
  unfold tagHandshake handshakeRecord
  cases inDomain env remote with
  | some id => rfl
  | none =>
    dsimp only
    rw [onRecord_bind, onRecord_lift]
    cases lowerMss env p with
    | error e => rfl
    | ok r => cases r <;> rfl

theorem fetchSynOf_onRecord (st : Option (A × Session)) :
    (fetchSynOf env remote p (st.map Prod.fst)).onRecord (st.map Prod.snd) =
      synRecord env remote p (st.map Prod.snd) := by
  cases st with
  | none => rfl
  | some e =>
    simp only [Option.map_some, fetchSynOf, synRecord, onRecord_bind, onRecord_update, ok_bind,
      tagHandshake_onRecord]
    cases handshakeRecord env remote p _ <;> rfl

theorem fetchSynAck_onRecord (a : A) (s : Session) :
    (fetchSynAck env remote a p).onRecord (some s) = synAckRecord env remote p s := by
  simp only [fetchSynAck, synAckRecord, onRecord_bind, onRecord_update, ok_bind,
    tagHandshake_onRecord]
  cases handshakeRecord env remote p _ <;> rfl

theorem fetchData_onRecord (ret : Nat) (buffer : Bool) (a : A) (s : Session) :
    (fetchData env remote ret buffer a p).onRecord (some s) =
      .ok (some s, dataVerdict env remote ret buffer p s.queue) := by
  unfold fetchData dataVerdict
  cases buffer with
  | false => rfl
  | true =>
    simp only [if_true, onRecord_bind, onRecord_load, ok_bind]
    cases inDomain env remote <;> rfl

theorem recoverTag_onRecord (id : OpennopId) (a : A) (s : Session) :
    (recoverTag env id a p).onRecord (some s) = (match inDomain env (some id) with
      | some id => .ok (some (saveacceleratorid p.key.largerIP id p s), p)
      | none => do
        let p' ← setTag env p
        return (some (saveacceleratorid p.key.largerIP env.id p' s), p')) := by
  unfold recoverTag
  cases inDomain env (some id) with
  | some id => rfl
  | none =>
    dsimp only
    rw [onRecord_bind, onRecord_lift]
    cases setTag env p <;> rfl

theorem fetchRecover_onMissing (ret : Nat) (buffer : Bool) (id : OpennopId)
    (new : Option (A × Session)) :
    (fetchRecover env id ret buffer p).onMissing new =
      recoverRecord env id ret buffer p (new.map Prod.snd) := by
  unfold fetchRecover
  rw [onMissing_insert]
  cases new with
  | none => rfl
  | some e =>
    simp only [Option.map_some, onRecord_bind, onRecord_update, ok_bind, recoverTag_onRecord,
      recoverRecord]
    cases inDomain env (some id) with
    | some id => cases buffer <;> rfl
    | none =>
      dsimp only
      cases setTag env p with
      | error e => rfl
      | ok p' => cases buffer <;> rfl

theorem fetchSyn_on (new entry : Option (A × Session)) :
    (fetchSyn env remote p).on new entry =
      synRecord env remote p ((entry.map Prod.snd).or (new.map Prod.snd)) := by
  unfold fetchSyn
  cases entry with
  | some e =>
    rw [on_lookup_some]
    exact fetchSynOf_onRecord env remote p (some e)
  | none =>
    rw [on_lookup_none, onMissing_insert]
    exact fetchSynOf_onRecord env remote p new

theorem fetcherCallback_on (id ret : Nat) (buffer : Bool) (new entry : Option (A × Session)) :
    (fetcherCallback env id ret buffer p).on new entry =
      fetcherRecord env id ret buffer (new.map Prod.snd) p (entry.map Prod.snd) := by
  unfold fetcherCallback fetcherRecord
  split
  · split
    · cases remoteID env p with
      | error e => rfl
      | ok remote =>
        rw [lift_ok, done_bind, ok_bind]
        split
        · exact fetchSyn_on env remote p new entry
        · cases entry with
          | some e =>
            rw [on_lookup_some]
            dsimp only [Option.map_some]
            split
            · exact fetchSynAck_onRecord env remote p e.1 e.2
            · exact fetchData_onRecord env remote p ret buffer e.1 e.2
          | none =>
            rw [on_lookup_none]
            cases remote with
            | none => rfl
            | some id =>
              dsimp only [Option.map_none]
              split
              · exact fetchRecover_onMissing env p ret buffer id new
              · rfl
    · rfl
  · rfl

end Fetcher

/-! ## The workers -/

def optimizeRecord (env : Env) (p : Mem) (s : Session) : Exec (Session × Mem) := do
  let s := saveacceleratorid p.key.largerIP env.id p s
  let p₁ ← setTag env p
  if mayCompress env p.key p₁ s then
    let (p₂, _) ← tcpCompress env.qlz env.compression true env.stateCompress p₁
    return (updateseq p.key.largerIP p₁ s, p₂)
  else return (updateseq p.key.largerIP p₁ s, p₁)

def deoptimizeRecord (env : Env) (remote : OpennopId) (p : Mem) (s : Session) :
    Exec (Session × Mem × Bool) := do
  let s := saveacceleratorid p.key.largerIP remote p s
  let flag ← getTcpOption p compressed
  if flag ≠ 0 then
    if mayDecompress env p.key p s then
      let (p₁, result) ← tcpDecompress env.qlz true env.stateDecompress p
      if result = 0 then return (s, p₁, false)
      else return (updateseq p.key.largerIP p₁ s, p₁, true)
    else return (s, p, true)
  else return (updateseq p.key.largerIP p s, p, true)

def processRecord (env : Env) (remote : Option OpennopId) (p : Mem) (s : Session) :
    Exec (Session × Mem × Bool) :=
  if ¬ p.syn ∧ p.ack ∧ ¬ p.fin then
    match inDomain env remote with
    | none => do
      let (s, p) ← optimizeRecord env p s
      return (s, p, true)
    | some id => deoptimizeRecord env id p s
  else return (s, p, true)

/-- What is left of a session after a packet with the flags of `p`. -/
def endRecord (p : Mem) (s : Session) : Option Session :=
  if p.rst then none
  else if p.fin then
    match s.state with
    | .established => some (setState .closing s)
    | .closing => none
    | _ => some s
  else some s

/-- `workerThread` for one connection. -/
def workerRecord (env : Env) (reread p : Mem) (st : Option Session) :
    Exec (Option Session × Verdict) := do
  let remote ← remoteID env p
  match st with
  | none => return (none, .acceptOriginal)
  | some s =>
    let (s, p, kept) ← processRecord env remote p s
    return (endRecord (if kept then p else reread) s, if kept then .accept (checksum p) else .drop)

section Worker

variable {A : Type} (env : Env) (p : Mem) (a : A) (s : Session)

theorem optimizePacket_onRecord :
    (optimizePacket env a p.key p).onRecord (some s) = (do
      let r ← optimizeRecord env p s
      return (some r.1, r.2)) := by
  unfold optimizePacket optimizeRecord
  rw [onRecord_update_bind]
  generalize saveacceleratorid p.key.largerIP env.id p s = s₁
  cases setTag env p with
  | error e => rw [onRecord_lift_error, error_bind, error_bind]
  | ok p₁ =>
    rw [lift_ok, done_bind, onRecord_load_bind, ok_bind]
    split
    · rw [onRecord_update_bind]
      cases tcpCompress env.qlz env.compression true env.stateCompress p₁ with
      | error e => rw [onRecord_lift_error, error_bind, error_bind]
      | ok r =>
        rw [lift_ok, done_bind, ok_bind]
        dsimp only
        rw [pure_eq_done, onRecord_done, pure_eq_ok, ok_bind, pure_eq_ok]
    · rw [onRecord_update_bind, pure_eq_done, onRecord_done, pure_eq_ok, ok_bind, pure_eq_ok]

theorem deoptimizePacket_onRecord (id : OpennopId) :
    (deoptimizePacket env id a p.key p).onRecord (some s) = (do
      let r ← deoptimizeRecord env id p s
      return (some r.1, r.2)) := by
  unfold deoptimizePacket deoptimizeRecord
  rw [onRecord_update_bind]
  generalize saveacceleratorid p.key.largerIP id p s = s₁
  cases getTcpOption p compressed with
  | error e => rw [onRecord_lift_error, error_bind, error_bind]
  | ok flag =>
    rw [lift_ok, done_bind, ok_bind]
    split
    · rw [onRecord_load_bind]
      split
      · cases tcpDecompress env.qlz true env.stateDecompress p with
        | error e => rw [onRecord_lift_error, error_bind, error_bind]
        | ok r =>
          rw [lift_ok, done_bind, ok_bind]
          dsimp only
          split
          · rw [pure_eq_done, onRecord_done, pure_eq_ok, ok_bind, pure_eq_ok]
          · rw [onRecord_update_bind, pure_eq_done, onRecord_done, pure_eq_ok, ok_bind, pure_eq_ok]
      · rw [pure_eq_done, onRecord_done, pure_eq_ok, ok_bind, pure_eq_ok]
    · rw [onRecord_update_bind, pure_eq_done, onRecord_done, pure_eq_ok, ok_bind, pure_eq_ok]

theorem processPacket_onRecord (remote : Option OpennopId) :
    (processPacket env remote a p).onRecord (some s) = (do
      let r ← processRecord env remote p s
      return (some r.1, r.2)) := by
  unfold processPacket processRecord
  split
  · cases inDomain env remote with
    | some id => exact deoptimizePacket_onRecord env p a s id
    | none =>
      dsimp only
      rw [onRecord_bind, optimizePacket_onRecord]
      cases optimizeRecord env p s with
      | error e => simp only [error_bind]
      | ok r => simp only [ok_bind, pure_eq_ok, pure_eq_done, onRecord_done]
  · simp only [ok_bind, pure_eq_ok, pure_eq_done, onRecord_done]

theorem endSession_onRecord : (endSession a p).onRecord (some s) = .ok (endRecord p s, ()) := by
  unfold endSession endRecord
  split
  · rfl
  · split
    · unfold closingsession
      rw [onRecord_bind, onRecord_load, ok_bind]
      cases hs : s.state <;> rfl
    · rfl

theorem workerThread_on (reread : Mem) (new entry : Option (A × Session)) :
    (workerThread env reread p).on new entry = workerRecord env reread p (entry.map Prod.snd) := by
  unfold workerThread workerRecord
  cases remoteID env p with
  | error e => rfl
  | ok remote =>
    rw [lift_ok, done_bind, ok_bind]
    cases entry with
    | none => rfl
    | some e =>
      rw [on_lookup_some, Option.map_some]
      dsimp only
      rw [onRecord_bind, processPacket_onRecord]
      cases processRecord env remote p e.2 with
      | error e => rw [error_bind, error_bind, error_bind]
      | ok r =>
        rw [ok_bind, ok_bind, pure_eq_ok, ok_bind]
        dsimp only
        rw [onRecord_bind, endSession_onRecord, ok_bind]
        dsimp only
        cases r.2.2 <;> rfl

end Worker

/-! ## On a table -/

namespace Sound

variable {A : Type} [DecidableEq A] [Fintype A] {t : Table A}

variable (hcard : Fintype.card A < 4294967296) (workers : Nat) (h : Sound t) (env : Env)
include hcard h

/-- **The fetcher on a sound table.** -/
theorem fetcherCallback {calloc : Option A} (hfree : ∀ a, calloc = some a → t.heap a = none)
    (id ret : Nat) (buffer : Bool) (p : Mem) :
    Outcome t p.key
      (fetcherRecord env id ret buffer
        (calloc.map fun _ => newSession p.key (pickQueue workers t.sessions)) p (t.sessionAt p.key))
      ((Opennop.fetcherCallback env id ret buffer p).exec workers calloc t) := by
  have := exec_on hcard workers calloc h (fetcherCallback_about env p id ret buffer) hfree
  rw [fetcherCallback_on, Option.map_map] at this
  exact this

/-- **A worker on a sound table.** -/
theorem workerThread (reread p : Mem) :
    Outcome t p.key (workerRecord env reread p (t.sessionAt p.key))
      ((Opennop.workerThread env reread p).exec workers none t) := by
  have hc : (Opennop.workerThread env reread p : Prog A Verdict).About p.key :=
    workerThread_about env p reread
  rw [Table.sessionAt, ← workerThread_on env p reread none (t.entry p.key)]
  generalize (Opennop.workerThread env reread p : Prog A Verdict) = c at hc ⊢
  exact exec_on hcard workers none h hc fun _ h => by cases h

end Sound

end Opennop
