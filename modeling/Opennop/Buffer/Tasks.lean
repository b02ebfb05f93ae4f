import Opennop.Buffer.Queue
import Opennop.Lib.Tree
import Opennop.Node.Worker

/-!
# What the threads do with packet buffers

`fetcher_callback`, one pass of the loop of `worker_thread`, and `memorymanager_function`, as
programs over the actions that other threads can see: calls on the session table, the operations on
queues and counters that the source does under one lock, accesses to a buffer, and verdicts. What a
function does with a packet in between is as in `Node.Fetcher` and `Node.Worker`.

The waits on conditions (`pthread_cond_wait`) change nothing and may end at any time; they are left
out, like counters of metrics and log messages.

Where the source calls `verify_neighbor_in_domain` twice for a packet, the neighbor may go down
between the calls. For a packet of a session this decides whether its buffer gets into a queue at
all, so the second call is an action of its own. For a handshake, and in `worker_thread`, the packet
only stays as it is then; there the neighbors are those at the beginning of the callback or the
pass.
-/

namespace Opennop

/-- The queue of one of the two processors of a worker. -/
structure Lane where
  worker : Nat
  deoptimization : Bool
  deriving DecidableEq

inductive QueueName where
  /-- `freepacketbuffers` -/
  | pool
  /-- `packetbufferstaging` -/
  | staging
  /-- The variables `start`, `end` and `qlen` of `move_queued_packets`. -/
  | locals
  /-- `workers[i].optimization.queue` or `workers[i].deoptimization.queue` -/
  | lane (q : Lane)
  deriving DecidableEq

inductive Call (A : Type) where
  | getsession (k : Key)
  | insertsession (k : Key)
  | read (a : A)
  | modify (a : A) (f : Session → Session)
  | clearsession (a : A)

abbrev Call.Result {A : Type} : Call A → Type
  | .getsession _ => Option A
  | .insertsession _ => Option A
  | .read _ => Session
  | .modify _ _ => Unit
  | .clearsession _ => Unit

inductive Act (A B : Type) where
  | call (c : Call A)
  /-- The thread crashes or hangs. -/
  | fault (e : Fault)
  /-- `qlen` of a queue, read under its lock. -/
  | qlen (n : QueueName)
  | dequeuePacket (n : QueueName)
  | queuePacket (n : QueueName) (b : B)
  | newpacket
  /-- `allocatedpacketbuffers += k` -/
  | account (k : Nat)
  /-- `memset(b, 0, sizeof(struct packet))` -/
  | wipe (b : B)
  | savePacket (b : B) (id ret : Nat) (originalpacket : Mem)
  /-- Reads of `b->id` and `b->data`. -/
  | load (b : B)
  /-- Reads of the TCP flags in `b->data`, after `b` was returned. -/
  | readFlags (b : B)
  /-- Writes to `b->data`. -/
  | store (b : B) (data : Mem)
  /-- `nfq_set_verdict` -/
  | setVerdict (id : Nat) (v : Verdict)
  /-- `verify_neighbor_in_domain`, the second call -/
  | verify (id : OpennopId)
  /-- `allocatedpacketbuffers = 0` -/
  | resetAllocated
  /-- `qlen = 0` -/
  | resetQlen (n : QueueName)
  /-- The first section of `move_queued_packets`. -/
  | takeQueued
  /-- The second section of `move_queued_packets`. -/
  | addQueued

abbrev Act.Result {A B : Type} : Act A B → Type
  | .call c => c.Result
  | .fault _ => Empty
  | .qlen _ => Nat
  | .dequeuePacket _ => Option B
  | .queuePacket _ _ => Unit
  | .newpacket => B
  | .account _ => Unit
  | .wipe _ => Unit
  | .savePacket _ _ _ _ => Unit
  | .load _ => Nat × Mem
  | .readFlags _ => Mem
  | .store _ _ => Unit
  | .setVerdict _ _ => Unit
  | .verify _ => Bool
  | .resetAllocated => Unit
  | .resetQlen _ => Unit
  | .takeQueued => Unit
  | .addQueued => Nat

abbrev Job (A B α : Type) := Tree (Act.Result (A := A) (B := B)) α

namespace Job

variable {A B α : Type}

/-- A computation that no other thread sees. -/
def ofExec : Exec α → Job A B α
  | .ok x => .done x
  | .error e => .act (.fault e) fun r => nomatch r

def ofProg : Prog A α → Job A B α
  | .done x => .done x
  | .fault e => .act (.fault e) fun r => nomatch r
  | .getsession k next => .act (.call (.getsession k)) fun r => ofProg (next r)
  | .insertsession k next => .act (.call (.insertsession k)) fun r => ofProg (next r)
  | .read a next => .act (.call (.read a)) fun s => ofProg (next s)
  | .modify a f next => .act (.call (.modify a f)) fun _ => ofProg next
  | .clearsession a next => .act (.call (.clearsession a)) fun _ => ofProg next

instance : MonadLift (Except Fault) (Job A B) := ⟨ofExec⟩

instance : MonadLift (Prog A) (Job A B) := ⟨ofProg⟩

def perform (e : Act A B) : Job A B e.Result := Tree.perform e

end Job

section Tasks

open Job

variable {A B : Type}

/-- `get_freepacket_buffer` -/
def getFreepacketBuffer : Job A B (Option B) := do
  let qlen ← perform (.qlen .pool)
  let thispacket ←
    if qlen > 0 then perform (.dequeuePacket .pool)
    else do
      let b ← perform .newpacket
      perform (.account 1)
      pure (some b)
  match thispacket with
  | some b =>
    perform (.wipe b)
    return some b
  | none => return none

/-- `put_freepacket_buffer` -/
def putFreepacketBuffer (b : B) : Job A B Unit := perform (.queuePacket .pool b)

/-- `optimize_packet` and `deoptimize_packet` for the queue of the session at `a` -/
def handOver (deoptimization : Bool) (a : A) (b : B) : Job A B Unit := do
  let s ← Prog.load a
  perform (.queuePacket (.lane ⟨s.queue, deoptimization⟩) b)

/-- The end of `fetcher_callback` for a packet of a session. When the second call of
`verify_neighbor_in_domain` does not confirm the first, the buffer goes into no queue. -/
def fetchDataTask (env : Env) (remote : Option OpennopId) (id ret : Nat) (a : A) (p : Mem) :
    Job A B Unit := do
  match ← getFreepacketBuffer with
  | some b =>
    perform (.savePacket b id ret p)
    match inDomain env remote with
    | none => handOver false a b
    | some remote => if ← perform (.verify remote) then handOver true a b else return ()
  | none => return ()

/-- The end of `fetcher_callback` for a packet whose session is made again. -/
def fetchRecoverTask (env : Env) (remote : OpennopId) (id ret : Nat) (p : Mem) : Job A B Unit := do
  match ← Prog.insert (A := A) p.key with
  | none => perform (.setVerdict id (.accept p))
  | some a =>
    Prog.update a (setState .established)
    let p ← recoverTag env remote a p
    match ← getFreepacketBuffer with
    | some b =>
      perform (.savePacket b id ret p)
      handOver true a b
    | none => return ()

/-- `fetcher_callback` for a TCP packet. -/
def fetchTcpTask (env : Env) (remote : Option OpennopId) (id ret : Nat) (p : Mem) :
    Job A B Unit :=
  if p.syn ∧ ¬ p.ack then do
    let v ← fetchSyn (A := A) env remote p
    perform (.setVerdict id v)
  else do
    match ← Prog.lookup (A := A) p.key with
    | some a =>
      if p.syn ∧ p.ack then
        let v ← fetchSynAck env remote a p
        perform (.setVerdict id v)
      else fetchDataTask env remote id ret a p
    | none =>
      match remote with
      | some remote =>
        if ¬ p.syn ∧ p.ack ∧ ¬ p.fin then fetchRecoverTask env remote id ret p
        else perform (.setVerdict id (.accept p))
      | none => perform (.setVerdict id (.accept p))

/-- `fetcher_callback` for the packet `p` of `ret` bytes with the number `id` -/
def fetcherTask (env : Env) (id ret : Nat) (p : Mem) : Job A B Unit :=
  if env.running then
    if p.protocol = ipprotoTcp ∧ id ≠ 0 then do
      let remote ← remoteID env p
      fetchTcpTask env remote id ret p
    else perform (.setVerdict id .acceptOriginal)
  else perform (.setVerdict id .acceptOriginal)

/-- `worker_thread` with a packet of the session at `a`. After a failed decompression the buffer is
back in the pool when the flags are read. -/
def processTask (env : Env) (remote : Option OpennopId) (b : B) (id : Nat) (a : A) (p : Mem) :
    Job A B Unit := do
  let (p, kept) ← processPacket env remote a p
  perform (.store b p)
  if kept then
    endSession a p
    perform (.store b (checksum p))
    perform (.setVerdict id (.accept (checksum p)))
    putFreepacketBuffer b
  else
    perform (.setVerdict id .drop)
    putFreepacketBuffer b
    let p ← perform (.readFlags b)
    endSession a p

/-- `worker_thread`, one pass of the loop of the processor with the queue `q` -/
def workerTask (env : Env) (q : Lane) : Job A B Unit := do
  match ← perform (.dequeuePacket (.lane q)) with
  | none => return ()
  | some b =>
    let (id, p) ← perform (.load b)
    let remote ← remoteID env p
    match ← Prog.lookup (A := A) p.key with
    | none =>
      perform (.setVerdict id .acceptOriginal)
      putFreepacketBuffer b
    | some a => processTask env remote b id a p

/-- `allocatefreepacketbuffers` for the staging queue -/
def allocatefreepacketbuffers : Nat → Job A B Unit
  | 0 => return ()
  | bufferstoallocate + 1 => do
    let b ← perform .newpacket
    perform (.queuePacket .staging b)
    allocatefreepacketbuffers bufferstoallocate

/-- `allocatedpacketbuffers += move_queued_packets(&packetbufferstaging, &freepacketbuffers)` -/
def moveStaged : Job A B Unit := do
  perform .takeQueued
  let newpacketbuffers ← perform .addQueued
  perform (.account newpacketbuffers)

/-- `memorymanager_function` before its loop -/
def managerStart : Job A B Unit := do
  perform .resetAllocated
  perform (.resetQlen .pool)
  perform (.resetQlen .staging)
  allocatefreepacketbuffers 1000
  moveStaged

/-- `memorymanager_function`, one pass of its loop. It may wait after it has read `qlen`. -/
def managerPass : Job A B Unit := do
  let _ ← perform (.qlen .pool)
  allocatefreepacketbuffers 100
  moveStaged

end Tasks

end Opennop
