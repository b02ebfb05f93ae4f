import Opennop.Node.Fetcher

/-!
# The workers (`opennopd/subsystems/worker.c`)

`workerThread` is one pass of the loop of `worker_thread`, for a packet it has taken from its queue.
The optimization and the deoptimization thread of a worker run the same code. The packet's buffer
goes back to the pool after the verdict. When a packet could not be decompressed that is before its
flags are read: `reread` is what the buffer holds by then, which may be another packet.
-/

namespace Opennop

/-- A test of the accelerators on the source's side and on the other side of a session, as the
worker writes it out for the two cases of `iph->saddr`. -/
def acceleratorsAre (k : Key) (p : Mem) (s : Session) (source other : OpennopId → Bool) : Bool :=
  (p.saddr == k.largerIP && source s.larger.accelerator && other s.smaller.accelerator) ||
    (p.saddr == k.smallerIP && source s.smaller.accelerator && other s.larger.accelerator)

/-- The source's accelerator is the local one, the destination has one, another one. -/
def mayCompress (env : Env) (k : Key) (p : Mem) (s : Session) : Bool :=
  acceleratorsAre k p s (fun id => compareOpennopid id env.id)
    (fun id => checkOpennopid id && !compareOpennopid id env.id) && s.state == .established

/-- The destination's accelerator is the local one. -/
def mayDecompress (env : Env) (k : Key) (p : Mem) (s : Session) : Bool :=
  acceleratorsAre k p s (fun _ => true) fun id => compareOpennopid id env.id

section Worker

variable {A : Type}

/-- A packet that no neighbor has tagged: tag it, and compress it when the other side has an
accelerator. -/
def optimizePacket (env : Env) (a : A) (k : Key) (p : Mem) : Prog A Mem := do
  Prog.update a (saveacceleratorid k.largerIP env.id p)
  let p ← setTag env p
  let s ← Prog.load a
  if mayCompress env k p s then
    Prog.update a (updateseq k.largerIP p)
    let (p, _) ← tcpCompress env.qlz env.compression true env.stateCompress p
    return p
  else
    Prog.update a (updateseq k.largerIP p)
    return p

/-- A packet that a neighbor has tagged; the flag is false when it is dropped. -/
def deoptimizePacket (env : Env) (remote : OpennopId) (a : A) (k : Key) (p : Mem) :
    Prog A (Mem × Bool) := do
  Prog.update a (saveacceleratorid k.largerIP remote p)
  let flag ← getTcpOption p compressed
  if flag ≠ 0 then
    let s ← Prog.load a
    if mayDecompress env k p s then
      let (p, result) ← tcpDecompress env.qlz true env.stateDecompress p
      if result = 0 then return (p, false)
      else
        Prog.update a (updateseq k.largerIP p)
        return (p, true)
    else return (p, true)
  else
    Prog.update a (updateseq k.largerIP p)
    return (p, true)

/-- `closingsession` of a pointer that is not null -/
def closingsession (a : A) : Prog A Unit := do
  let s ← Prog.load a
  match s.state with
  | .established => Prog.update a (setState .closing)
  | .closing => Prog.clear a
  | _ => return ()

/-- What a reset and a FIN do to the session. -/
def endSession (a : A) (p : Mem) : Prog A Unit :=
  if p.rst then Prog.clear a
  else if p.fin then closingsession a
  else return ()

/-- What the worker does to the packet of a session; the flag says whether it is still there. -/
def processPacket (env : Env) (remote : Option OpennopId) (a : A) (p : Mem) : Prog A (Mem × Bool) :=
  if ¬ p.syn ∧ p.ack ∧ ¬ p.fin then
    match inDomain env remote with
    | none => do
      let p ← optimizePacket env a p.key p
      return (p, true)
    | some id => deoptimizePacket env id a p.key p
  else return (p, true)

/-- `worker_thread`, one packet -/
def workerThread (env : Env) (reread p : Mem) : Prog A Verdict := do
  let remote ← remoteID env p
  match ← Prog.lookup p.key with
  | none => return .acceptOriginal
  | some a =>
    let (p, kept) ← processPacket env remote a p
    endSession a (if kept then p else reread)
    if kept then return .accept (checksum p) else return .drop

end Worker

end Opennop
