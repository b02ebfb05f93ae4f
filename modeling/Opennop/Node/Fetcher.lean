import Opennop.Ipc.Neighbor
import Opennop.Packet.Checksum
import Opennop.Packet.Compression
import Opennop.Session.Calls

/-!
# The fetcher (`opennopd/subsystems/fetcher.c`)

`fetcherCallback` is what the fetcher does with one packet from the kernel queue: the calls it makes
on the session table and the verdict. The bytes of the packet are its own until it gives them to a
worker. The neighbors are those at the time of the call. Counters and log messages are left out.
-/

namespace Opennop

/-- What the node is and knows while it handles a packet. -/
structure Env where
  /-- `servicestate >= RUNNING` -/
  running : Bool
  /-- `get_opennop_id()` -/
  id : OpennopId
  /-- `ipchead` -/
  neighbors : List Neighbor
  /-- The distance between two stack variables that `get_nod_next_header` mixes up. -/
  gap : Int
  /-- The switch `compression`. -/
  compression : Bool
  /-- The worker's two blocks for QuickLZ were allocated. -/
  stateCompress : Bool
  stateDecompress : Bool
  qlz : Qlz

/-- What becomes of a packet. -/
inductive Verdict where
  /-- `NF_ACCEPT` with the packet as it is now -/
  | accept (p : Mem)
  /-- `NF_ACCEPT` of the kernel's own copy -/
  | acceptOriginal
  /-- `NF_DROP` -/
  | drop
  /-- A copy is in the optimization queue of a worker. -/
  | optimize (queue : Nat) (p : Mem)
  /-- A copy is in the deoptimization queue of a worker. -/
  | deoptimize (queue : Nat) (p : Mem)
  /-- There was no buffer; the kernel never gets a verdict. -/
  | stuck

/-- The packet cut to `n` bytes, as `save_packet` copies it into a zeroed buffer and as a verdict
with a length sends it. -/
def Mem.cut (p : Mem) (n : Nat) : Mem := fun i => if i < n then p i else 0

/-- `remoteID = get_nod_header_data(p, ONOP).data` and the ID it points to -/
def remoteID (env : Env) (p : Mem) : Exec (Option OpennopId) := do
  let header ← getNodHeaderData env.gap p onop
  return header.data.map (OpennopId.load p)

/-- `remoteID != NULL` and `verify_neighbor_in_domain(remoteID) == true` -/
def inDomain (env : Env) (remote : Option OpennopId) : Option OpennopId :=
  remote.filter (verifyNeighborInDomain env.neighbors)

/-- `set_nod_header_data(p, ONOP, get_opennop_id(), OPENNOP_IPC_ID_LENGTH)` -/
def setTag (env : Env) (p : Mem) : Exec Mem := setNodHeaderData env.gap p onop env.id.bytes

/-- `TCPOPT_MAXSEG` -/
def mss : UInt8 := 2

/-- The part of the handshake in which the fetcher lowers the MSS and adds the tag. -/
def lowerMss (env : Env) (p : Mem) : Exec (Option Mem) := do
  let mms := (← getTcpOption p mss) % 65536
  if mms > 60 then
    let (p, _) ← setTcpOption p mss 4 (mms - 60)
    let p ← setTag env p
    return some p
  else return none

section Fetcher

variable {A : Type}

/-- How the fetcher leaves a handshake packet: tagged with the local ID, whose session then records
it, or as it came, and then the session records the neighbor that tagged it. -/
def tagHandshake (env : Env) (remote : Option OpennopId) (a : A) (p : Mem) : Prog A (Option Mem) :=
  match inDomain env remote with
  | none => do
    match ← lowerMss env p with
    | some p' =>
      Prog.update a (saveacceleratorid p.key.largerIP env.id p')
      return some p'
    | none => return none
  | some id => do
    Prog.update a (saveacceleratorid p.key.largerIP id p)
    return none

def setState (state : TcpState) (s : Session) : Session := { s with state }

def fetchSynOf (env : Env) (remote : Option OpennopId) (p : Mem) : Option A → Prog A Verdict
  | none => return .accept p
  | some a => do
    Prog.update a (sourceisclient p.key.largerIP p)
    Prog.update a (updateseq p.key.largerIP p)
    let tagged ← tagHandshake env remote a p
    Prog.update a (setState .synSent)
    return .accept ((tagged.map checksum).getD p)

def fetchSyn (env : Env) (remote : Option OpennopId) (p : Mem) : Prog A Verdict := do
  match ← Prog.lookup p.key with
  | some a => fetchSynOf env remote p (some a)
  | none =>
    let thissession ← Prog.insert p.key
    fetchSynOf env remote p thissession

def fetchSynAck (env : Env) (remote : Option OpennopId) (a : A) (p : Mem) : Prog A Verdict := do
  Prog.update a (updateseq p.key.largerIP p)
  let tagged ← tagHandshake env remote a p
  Prog.update a (setState .established)
  return .accept (checksum (tagged.getD p))

/-- Any other packet of a session goes to the worker of the session. -/
def fetchData (env : Env) (remote : Option OpennopId) (ret : Nat) (buffer : Bool) (a : A)
    (p : Mem) :
    Prog A Verdict := do
  if buffer then
    let s ← Prog.load a
    match inDomain env remote with
    | none => return .optimize s.queue (p.cut ret)
    | some _ => return .deoptimize s.queue (p.cut ret)
  else return .stuck

/-- The tag of a recovered session: the neighbor's, which is recorded, or else the local one. -/
def recoverTag (env : Env) (remote : OpennopId) (a : A) (p : Mem) : Prog A Mem :=
  match inDomain env (some remote) with
  | some id => do
    Prog.update a (saveacceleratorid p.key.largerIP id p)
    return p
  | none => do
    let p' ← setTag env p
    Prog.update a (saveacceleratorid p.key.largerIP env.id p')
    return p'

/-- A packet of an established connection that another accelerator has tagged, and whose session is
not known here: the session is made again. -/
def fetchRecover (env : Env) (remote : OpennopId) (ret : Nat) (buffer : Bool) (p : Mem) :
    Prog A Verdict := do
  match ← Prog.insert p.key with
  | none => return .accept p
  | some a =>
    Prog.update a (setState .established)
    let p ← recoverTag env remote a p
    if buffer then
      let s ← Prog.load a
      return .deoptimize s.queue (p.cut ret)
    else return .stuck

/-- `fetcher_callback` for the packet `p` of `ret` bytes with the number `id`; `buffer` says whether
`get_freepacket_buffer` returns one. -/
def fetcherCallback (env : Env) (id ret : Nat) (buffer : Bool) (p : Mem) : Prog A Verdict :=
  if env.running then
    if p.protocol = ipprotoTcp ∧ id ≠ 0 then do
      let remote ← remoteID env p
      if p.syn ∧ ¬ p.ack then fetchSyn env remote p
      else
        match ← Prog.lookup p.key with
        | some a =>
          if p.syn ∧ p.ack then fetchSynAck env remote a p
          else fetchData env remote ret buffer a p
        | none =>
          match remote with
          | some remote =>
            if ¬ p.syn ∧ p.ack ∧ ¬ p.fin then fetchRecover env remote ret buffer p
            else return .accept p
          | none => return .accept p
    else return .acceptOriginal
  else return .acceptOriginal

end Fetcher

end Opennop
