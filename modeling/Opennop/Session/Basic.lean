import Opennop.Packet.Header

/-!
# Sessions (`include/session.h`, `opennopd/sessionmanager.c`)

The record the optimizer keeps of a TCP connection, and the functions that change it from a packet.
The links of the table are not part of the record here. The two `StartSEQ` and two `NextAck` fields
of the source are left out: nothing reads or writes them.
-/

namespace Opennop

/-! ## Accelerator IDs -/

/-- `char id[OPENNOP_IPC_ID_LENGTH]` -/
structure OpennopId where
  b0 : UInt8
  b1 : UInt8
  b2 : UInt8
  b3 : UInt8
  deriving DecidableEq, Repr

namespace OpennopId

/-- The ID of zeros, which stands for none. -/
def zero : OpennopId := ⟨0, 0, 0, 0⟩

def bytes (id : OpennopId) : List UInt8 := [id.b0, id.b1, id.b2, id.b3]

def load (m : Mem) (a : Nat) : OpennopId := ⟨m a, m (a + 1), m (a + 2), m (a + 3)⟩

@[simp] theorem length_bytes (id : OpennopId) : id.bytes.length = 4 := rfl

theorem load_bytes (m : Mem) (a : Nat) : (load m a).bytes = m.read a 4 := rfl

theorem bytes_inj {a b : OpennopId} (h : a.bytes = b.bytes) : a = b := by
  cases a
  cases b
  simp_all [bytes]

end OpennopId

/-- `check_opennopid` -/
def checkOpennopid (id : OpennopId) : Bool := id.b0 != 0 || id.b1 != 0 || id.b2 != 0 || id.b3 != 0

/-- `compare_opennopid` -/
def compareOpennopid (a b : OpennopId) : Bool :=
  a.b0 == b.b0 && a.b1 == b.b1 && a.b2 == b.b2 && a.b3 == b.b3

theorem compareOpennopid_iff {a b : OpennopId} : compareOpennopid a b = true ↔ a = b := by
  cases a
  cases b
  simp [compareOpennopid, and_assoc]

theorem checkOpennopid_iff {id : OpennopId} : checkOpennopid id = true ↔ id ≠ .zero := by
  cases id
  simp only [checkOpennopid, OpennopId.zero, ne_eq, OpennopId.mk.injEq, Bool.or_eq_true, bne_iff_ne]
  tauto

/-! ## Records -/

/-- `struct endpoint` -/
structure Endpoint where
  address : Nat
  port : Nat
  previoussequence : Nat := 0
  sequence : Nat := 0
  nextsequence : Nat := 0
  accelerator : OpennopId := .zero
  deriving DecidableEq, Repr

inductive Side where
  | larger
  | smaller
  deriving DecidableEq, Repr

def Side.other : Side → Side
  | larger => smaller
  | smaller => larger

/-- The values of `state`: zero and the states of `netinet/tcp.h` that are used. -/
inductive TcpState where
  | new
  | synSent
  | established
  | closing
  deriving DecidableEq, Repr

/-- `struct session`. `client` and `server` point to the address of one of the endpoints. -/
structure Session where
  client : Option Side := none
  server : Option Side := none
  larger : Endpoint
  smaller : Endpoint
  deadcounter : Nat := 0
  state : TcpState := .new
  queue : Nat
  deriving DecidableEq, Repr

/-- The arguments by which a session is looked up. -/
@[ext]
structure Key where
  largerIP : Nat
  largerIPPort : Nat
  smallerIP : Nat
  smallerIPPort : Nat
  deriving Repr

instance : DecidableEq Key := fun _ _ => decidable_of_iff _ Key.ext_iff.symm

namespace Session

def endpoint (s : Session) : Side → Endpoint
  | .larger => s.larger
  | .smaller => s.smaller

def setEndpoint (s : Session) (side : Side) (e : Endpoint) : Session :=
  match side with
  | .larger => { s with larger := e }
  | .smaller => { s with smaller := e }

/-- The four values by which `getsession` compares. -/
def key (s : Session) : Key := ⟨s.larger.address, s.larger.port, s.smaller.address, s.smaller.port⟩

end Session

/-! ## From a packet -/

/-- `sort_sockets` -/
def sortSockets (saddr source daddr dest : Nat) : Key :=
  if saddr > daddr then ⟨saddr, source, daddr, dest⟩ else ⟨daddr, dest, saddr, source⟩

def Mem.key (p : Mem) : Key := sortSockets p.saddr p.source p.daddr p.dest

/-- The endpoint `updateseq`, `sourceisclient` and `saveacceleratorid` take as the source. -/
def sourceSide (largerIP : Nat) (p : Mem) : Side := if p.saddr = largerIP then .larger else .smaller

/-- The packet is one byte before the last sequence number and not the expected one. -/
def isKeepalive (p : Mem) (e : Endpoint) : Bool :=
  p.seq != e.nextsequence && p.seq == (e.sequence + 4294967295) % 4294967296

/-- The two sequence numbers `__updateseq` stores for a packet. -/
def storeSeq (p : Mem) (e : Endpoint) : Endpoint :=
  { e with
    sequence := p.seq
    nextsequence :=
      if p.syn then (p.seq + 1) % 4294967296
      else (((p.seq : Int) + (p.totLen - 4 * p.ihl - 4 * p.doff)) % 4294967296).toNat }

/-- `__updateseq` -/
def updateseqOf (p : Mem) (s : Session) (source : Side) : Session :=
  if isKeepalive p (s.endpoint source) then s
  else { s.setEndpoint source (storeSeq p (s.endpoint source)) with deadcounter := 0 }

/-- `updateseq` -/
def updateseq (largerIP : Nat) (p : Mem) (s : Session) : Session :=
  if largerIP ≠ 0 then updateseqOf p s (sourceSide largerIP p) else s

/-- `sourceisclient` -/
def sourceisclient (largerIP : Nat) (p : Mem) (s : Session) : Session :=
  if largerIP ≠ 0 then
    { s with client := some (sourceSide largerIP p), server := some (sourceSide largerIP p).other }
  else s

/-- `saveacceleratorid` -/
def saveacceleratorid (largerIP : Nat) (id : OpennopId) (p : Mem) (s : Session) : Session :=
  if largerIP ≠ 0 then
    s.setEndpoint (sourceSide largerIP p)
      { s.endpoint (sourceSide largerIP p) with accelerator := id }
  else s

/-- `updateseq` depends on the packet through these fields only. -/
theorem updateseq_congr {p p' : Mem} (hs : p'.saddr = p.saddr) (hq : p'.seq = p.seq)
    (hf : p'.flags = p.flags)
    (hl : (p'.totLen : Int) - 4 * p'.ihl - 4 * p'.doff = p.totLen - 4 * p.ihl - 4 * p.doff)
    (largerIP : Nat) (s : Session) : updateseq largerIP p' s = updateseq largerIP p s := by
  have hsyn : p'.syn = p.syn := by
    unfold Mem.syn
    rw [hf]
  unfold updateseq updateseqOf isKeepalive storeSeq sourceSide
  rw [hs, hq, hsyn, hl]

end Opennop
