import Opennop.Node.Worker
import Opennop.Packet.Lengths
import Opennop.Packet.Nod

/-!
# Accelerated sessions

`show sessions` marks a session as accelerated by `session_accelerated`, which knows nothing of
directions. The worker decides for each packet whether to compress it, from the accelerators of the
two sides as seen from the packet's source. Once the local ID has been saved for the source's side,
the two agree.
-/

namespace Opennop

/-- `session_accelerated`; `id` is the local ID. -/
def sessionAccelerated (id : OpennopId) (s : Session) : Bool :=
  (compareOpennopid s.larger.accelerator id || compareOpennopid s.smaller.accelerator id) &&
    (checkOpennopid s.larger.accelerator && checkOpennopid s.smaller.accelerator) &&
    !compareOpennopid s.larger.accelerator s.smaller.accelerator

section

variable {env : Env} {p : Mem} {s : Session}

theorem sessionAccelerated_iff {id : OpennopId} :
    sessionAccelerated id s = true ↔ (s.larger.accelerator = id ∨ s.smaller.accelerator = id) ∧
      s.larger.accelerator ≠ .zero ∧ s.smaller.accelerator ≠ .zero ∧
      s.larger.accelerator ≠ s.smaller.accelerator := by
  simp only [sessionAccelerated, Bool.and_eq_true, Bool.or_eq_true, Bool.not_eq_true',
    ← Bool.not_eq_true, compareOpennopid_iff, checkOpennopid_iff, and_assoc, ne_eq]

theorem saddr_eq_or (p : Mem) : p.saddr = p.key.largerIP ∨ p.saddr = p.key.smallerIP := by
  unfold Mem.key sortSockets
  split
  · exact .inl rfl
  · exact .inr rfl

theorem mayCompress_iff {k : Key} : mayCompress env k p s = true ↔
    ((p.saddr = k.largerIP ∧ s.larger.accelerator = env.id ∧ s.smaller.accelerator ≠ .zero ∧
        s.smaller.accelerator ≠ env.id) ∨
      (p.saddr = k.smallerIP ∧ s.smaller.accelerator = env.id ∧ s.larger.accelerator ≠ .zero ∧
        s.larger.accelerator ≠ env.id)) ∧ s.state = .established := by
  simp only [mayCompress, acceleratorsAre, Bool.and_eq_true, Bool.or_eq_true, Bool.not_eq_true',
    ← Bool.not_eq_true, compareOpennopid_iff, checkOpennopid_iff, beq_iff_eq, and_assoc, ne_eq]

theorem mayDecompress_iff {k : Key} : mayDecompress env k p s = true ↔
    (p.saddr = k.largerIP ∧ s.smaller.accelerator = env.id) ∨
      (p.saddr = k.smallerIP ∧ s.larger.accelerator = env.id) := by
  simp only [mayDecompress, acceleratorsAre, Bool.and_true, Bool.or_eq_true,
    Bool.and_eq_true, beq_iff_eq, compareOpennopid_iff]

/-- The steps of the worker on a packet that it optimizes. -/
def optimizeSteps (env : Env) (compress : Bool) (p : Mem) : Exec Mem := do
  let p ← setTag env p
  if compress then do
    let (p, _) ← tcpCompress env.qlz env.compression true env.stateCompress p
    return p
  else return p

/-- The packet that leaves `optimizePacket` has gone through these steps, and was compressed if the
worker may do so. -/
theorem optimizePacket_steps {A : Type} (a : A) (k : Key) {p' : Mem}
    (htag : setTag env p = .ok p') :
    ((optimizePacket env a k p).onRecord (some s)).map Prod.snd =
      optimizeSteps env (mayCompress env k p' (saveacceleratorid k.largerIP env.id p s)) p := by
  unfold optimizePacket optimizeSteps
  rw [Prog.onRecord_update_bind, Prog.onRecord_bind, Prog.onRecord_lift, htag, ok_bind, ok_bind,
    pure_bind]
  dsimp only
  rw [Prog.onRecord_load_bind]
  split
  · rw [Prog.onRecord_update_bind, Prog.onRecord_bind, Prog.onRecord_lift]
    cases tcpCompress env.qlz env.compression true env.stateCompress p' <;> rfl
  · rfl

theorem mayCompress_eq (hid : env.id ≠ .zero) (hihl : 5 ≤ p.ihl) (hlarger : p.key.largerIP ≠ 0)
    {p' : Mem} (htag : setTag env p = .ok p') :
    mayCompress env p.key p' (saveacceleratorid p.key.largerIP env.id p s) =
      ((saveacceleratorid p.key.largerIP env.id p s).state == .established &&
        sessionAccelerated env.id (saveacceleratorid p.key.largerIP env.id p s)) := by
  have hsaddr : p'.saddr = p.saddr :=
    (setNodHeaderData_sameIp env.gap p hihl (by decide) (by simp) p' htag).saddr hihl
  rw [Bool.eq_iff_iff, Bool.and_eq_true, beq_iff_eq, mayCompress_iff,
    sessionAccelerated_iff, hsaddr, saveacceleratorid, if_pos hlarger, sourceSide]
  by_cases hl : p.saddr = p.key.largerIP
  · simp only [hl, if_true, Session.setEndpoint, Session.endpoint]
    grind
  · have hsm := (saddr_eq_or p).resolve_left hl
    simp only [hl, if_false, Session.setEndpoint, Session.endpoint]
    grind

/-- **The displayed state is the actual one.** When the worker has saved the local ID for the source
of an ACK that no neighbor has tagged and has tagged it itself, it calls `tcp_compress` for the
packet exactly when the session is established and is shown as accelerated. The kernel queues no
packet with an IP header below five words; the TCP header and the session may be anything. -/
theorem mayCompress_iff_sessionAccelerated (hid : env.id ≠ .zero) (hihl : 5 ≤ p.ihl)
    (hlarger : p.key.largerIP ≠ 0) {p' : Mem} (htag : setTag env p = .ok p') :
    (mayCompress env p.key p' (saveacceleratorid p.key.largerIP env.id p s) = true ↔
      (saveacceleratorid p.key.largerIP env.id p s).state = .established ∧
        sessionAccelerated env.id (saveacceleratorid p.key.largerIP env.id p s) = true) ∧
      ∀ (A : Type) (a : A), ((optimizePacket env a p.key p).onRecord (some s)).map Prod.snd =
        optimizeSteps env ((saveacceleratorid p.key.largerIP env.id p s).state == .established &&
          sessionAccelerated env.id (saveacceleratorid p.key.largerIP env.id p s)) p := by
  have hmay := mayCompress_eq (s := s) hid hihl hlarger htag
  refine ⟨?_, fun A a => ?_⟩
  · rw [hmay, Bool.and_eq_true, beq_iff_eq]
  · rw [optimizePacket_steps a p.key htag, hmay]

end

def localEnv : Env where
  running := true
  id := ⟨1, 2, 3, 4⟩
  neighbors := []
  gap := 0
  compression := true
  stateCompress := true
  stateDecompress := true
  qlz := ⟨id, fun _ => []⟩

/-- An established session whose larger side another node accelerates; the source of `bareSegment`
is the smaller side. -/
def halfAccelerated : Session where
  larger := { address := 0x0200000a, port := 80, accelerator := ⟨9, 9, 9, 9⟩ }
  smaller := { address := 0x0100000a, port := 0x3930 }
  state := .established
  queue := 0

/-- The packet is tagged and compressed, and the session is shown as accelerated. -/
theorem mayCompress_bareSegment :
    ∃ p', setTag localEnv (bareSegment 0) = .ok p' ∧
      mayCompress localEnv (bareSegment 0).key p'
        (saveacceleratorid (bareSegment 0).key.largerIP localEnv.id
        (bareSegment 0) halfAccelerated) = true := by
  have hwf : WellFormed (bareSegment 0) [] := by decide
  obtain ⟨p', hset, -, -⟩ := setNodHeaderData_grow 0 (hwf.shows _ rfl) (by decide) rfl
    (show localEnv.id.bytes.length = 4 from rfl) (by decide) (by decide) (by decide)
  have htag : setTag localEnv (bareSegment 0) = .ok p' := hset
  have hlarger : (bareSegment 0).key.largerIP ≠ 0 := by decide +kernel
  refine ⟨p', htag, ?_⟩
  rw [(mayCompress_iff_sessionAccelerated (by decide) (by decide) hlarger htag).1]
  decide +kernel

end Opennop
