import Opennop.Buffer.Protocol
import Opennop.Lib.Trace

/-!
# The fetcher, the processors and the memory manager together

The state has the buffers and queues, `allocatedpacketbuffers`, the blocks that are sessions and,
for each thread, what it still has to do. One step is one action of one thread, the beginning of a
pass, or the removal of a session by another thread. Of the session table only this is kept: a
lookup finds a session that is there, an insertion takes a block that is not in use, and a call with
a pointer to a session that is not there any more faults. What a record has in it is arbitrary, so
that whatever the other threads write is covered.

The rest of the state is history that no function reads: the buffers that were ever allocated, what
each thread has in hand, what it has gone on without, and which packets were delivered, queued and
answered.
-/

namespace Opennop

inductive Thread where
  | fetcher
  | processor (q : Lane)
  | memorymanager
  deriving DecidableEq

structure World (A B : Type) where
  mem : Buffers QueueName B
  /-- `allocatedpacketbuffers` -/
  allocated : Nat
  /-- The blocks that are sessions of the table. -/
  live : A → Bool
  job : Thread → Job A B Unit
  /-- What the node was and knew when a processor began its pass. -/
  env : Lane → Env
  /-- The buffers that were allocated. -/
  ever : List B
  /-- How many buffers a thread has allocated and not yet counted. -/
  owed : Thread → Nat
  /-- The buffers a thread has in hand. -/
  held : Thread → List B
  /-- The buffers a thread has taken from queues. -/
  took : Thread → List B
  /-- The buffers a thread has put into the pool. -/
  gave : Thread → List B
  /-- The buffers that a thread had in hand and went on without. -/
  lost : List B
  /-- The packets `fetcher_callback` was called with. -/
  delivered : List Nat
  /-- The packets a thread has in hand. -/
  hand : Thread → List Nat
  /-- The packets put into a queue. -/
  arrived : Lane → List Nat
  /-- The packets for which `nfq_set_verdict` was called. -/
  verdicts : List Nat

/-- `save_packet` -/
def savePacket {B : Type} (pkt : Packet B) (id ret : Nat) (originalpacket : Mem) : Packet B :=
  { pkt with
    id := id
    data := fun i => if i < ret then originalpacket i else pkt.data i }

/-- What comes from outside: the address `calloc` returns, the answers of the session table, and the
neighbors at this time. -/
structure Input (A B : Type) where
  calloc : B
  table : (c : Call A) → c.Result
  neighbors : List Neighbor

inductive Event (A B : Type) where
  /-- The kernel delivers a packet. -/
  | deliver (env : Env) (id ret : Nat) (p : Mem)
  /-- A processor begins a pass of its loop. -/
  | pass (q : Lane) (env : Env)
  /-- The memory manager begins a pass of its loop. -/
  | refill
  /-- The next action of a thread. -/
  | act (th : Thread) (x : Input A B)
  /-- Another thread removes a session. -/
  | remove (a : A)

/-- The address that `calloc` returns in a step. -/
def Event.calloc {A B : Type} : Event A B → Option B
  | .act _ x => some x.calloc
  | _ => none

def Event.neighbors {A B : Type} : Event A B → Option (List Neighbor)
  | .act _ x => some x.neighbors
  | _ => none

namespace Act

variable {A B : Type}

def allocates : Act A B → Bool
  | .newpacket => true
  | _ => false

/-- The action is `allocatedpacketbuffers = 0`. -/
def resetsAllocated : Act A B → Bool
  | .resetAllocated => true
  | _ => false

/-- The action is `freepacketbuffers.qlen = 0`. -/
def resetsPool : Act A B → Bool
  | .resetQlen .pool => true
  | _ => false

/-- The neighbor that the action looks up once more. -/
def verifies : Act A B → Option OpennopId
  | .verify id => some id
  | _ => none

theorem eq_of_resetsAllocated {a : Act A B} (h : a.resetsAllocated) : a = .resetAllocated := by
  cases a with
  | resetAllocated => rfl
  | _ => cases h

theorem eq_of_resetsPool {a : Act A B} (h : a.resetsPool) : a = .resetQlen .pool := by
  cases a with
  | resetQlen n =>
    cases n with
    | pool => rfl
    | _ => cases h
  | _ => cases h

end Act

namespace World

variable {A B : Type} [DecidableEq A] [DecidableEq B]

omit [DecidableEq A] [DecidableEq B] in
def setMem (w : World A B) (mem : Buffers QueueName B) : World A B := { w with mem }

def idOf (w : World A B) (b : B) : Nat := ((w.mem.content b).map Prod.fst).getD 0

/-- A thread has taken a buffer from a queue, and with it the packet that was queued. -/
def receive (w : World A B) (th : Thread) (n : QueueName) (b : B) : World A B :=
  { w with
    held := Function.update w.held th (w.held th ++ [b])
    took := Function.update w.took th (w.took th ++ [b])
    hand :=
      match n with
      | .lane _ => Function.update w.hand th (w.hand th ++ [w.idOf b])
      | _ => w.hand }

/-- A thread has put a buffer into a queue, and with it the packet it hands over. -/
def release (w : World A B) (th : Thread) (n : QueueName) (b : B) : World A B :=
  { w with
    held := Function.update w.held th ((w.held th).erase b)
    gave :=
      match n with
      | .pool => Function.update w.gave th (w.gave th ++ [b])
      | _ => w.gave
    hand :=
      match n with
      | .lane _ => Function.update w.hand th ((w.hand th).erase (w.idOf b))
      | _ => w.hand
    arrived :=
      match n with
      | .lane q => Function.update w.arrived q (w.arrived q ++ [w.idOf b])
      | _ => w.arrived }

def allocate (w : World A B) (th : Thread) (b : B) : World A B :=
  { w with
    mem := newpacket w.mem b
    ever := w.ever ++ [b]
    held := Function.update w.held th (w.held th ++ [b])
    owed := Function.update w.owed th (w.owed th + 1) }

def answer (w : World A B) (th : Thread) (id : Nat) : World A B :=
  { w with
    hand := Function.update w.hand th ((w.hand th).erase id)
    verdicts := w.verdicts ++ [id] }

/-- A thread goes on without the buffer and the packet it has in hand. -/
def forget (w : World A B) (th : Thread) : World A B :=
  { w with
    held := Function.update w.held th []
    lost := w.lost ++ w.held th
    hand := Function.update w.hand th [] }

def call (w : World A B) (x : Input A B) : (c : Call A) → Exec (World A B × c.Result)
  | .getsession k => .ok (w, (x.table (.getsession k)).filter w.live)
  | .insertsession k =>
    match (x.table (.insertsession k)).filter fun a => !w.live a with
    | none => .ok (w, none)
    | some a => .ok ({ w with live := Function.update w.live a true }, some a)
  | .read a => if w.live a then .ok (w, x.table (.read a)) else .error .segv
  | .modify a _ => if w.live a then .ok (w, ()) else .error .segv
  | .clearsession a =>
    if w.live a then .ok ({ w with live := Function.update w.live a false }, ()) else .error .segv

/-- One action of the thread `th`. -/
def perform (w : World A B) (th : Thread) (x : Input A B) :
    (e : Act A B) → Exec (World A B × e.Result)
  | .call c => w.call x c
  | .fault e => .error e
  | .qlen n => .ok (w, (w.mem.head n).qlen)
  | .dequeuePacket n => do
    match ← Opennop.dequeuePacket w.mem n with
    | (mem, none) => return (w.setMem mem, none)
    | (mem, some b) => return ((w.receive th n b).setMem mem, some b)
  | .queuePacket n b => do
    let mem ← Opennop.queuePacket w.mem n b
    return ((w.release th n b).setMem mem, ())
  | .newpacket => .ok (w.allocate th x.calloc, x.calloc)
  | .account k =>
    .ok ({ w with
      allocated := (w.allocated + k) % 4294967296
      owed := Function.update w.owed th (w.owed th - k) }, ())
  | .wipe b => do
    let _ ← w.mem.load b
    return (w.setMem (w.mem.store b {}), ())
  | .savePacket b id ret p => do
    let pkt ← w.mem.load b
    return (w.setMem (w.mem.store b (Opennop.savePacket pkt id ret p)), ())
  | .load b => do
    let pkt ← w.mem.load b
    return (w, (pkt.id, pkt.data))
  | .readFlags b => do
    let pkt ← w.mem.load b
    return (w, pkt.data)
  | .store b data => do
    let pkt ← w.mem.load b
    return (w.setMem (w.mem.store b { pkt with data }), ())
  | .setVerdict id _ => .ok (w.answer th id, ())
  | .verify id =>
    if verifyNeighborInDomain x.neighbors id then .ok (w, true) else .ok (w.forget th, false)
  | .resetAllocated => .ok ({ w with allocated := 0 }, ())
  | .resetQlen n => .ok (w.setMem (w.mem.setHead n { w.mem.head n with qlen := 0 }), ())
  | .takeQueued => .ok (w.setMem (Opennop.takeQueued w.mem .staging .locals), ())
  | .addQueued => do
    let (mem, k) ← Opennop.addQueued w.mem .locals .pool
    return (w.setMem mem, k)

/-- The next action of a thread. A thread that faults stays where it is. -/
def act (w : World A B) (th : Thread) (x : Input A B) : World A B :=
  match w.job th with
  | .done _ => w
  | .act e next =>
    match w.perform th x e with
    | .ok (w', r) => { w' with job := Function.update w'.job th (next r) }
    | .error _ => w

/-- A thread that is done with its job gets another one. -/
def begin (w : World A B) (th : Thread) (job : Job A B Unit) : World A B :=
  { w with job := Function.update w.job th job }

/-- The kernel delivers a packet to the fetcher. -/
def deliver (w : World A B) (env : Env) (id ret : Nat) (p : Mem) : World A B :=
  match w.job .fetcher with
  | .done _ =>
    { w.begin .fetcher (fetcherTask env id ret p) with
      delivered := w.delivered ++ [id]
      hand := Function.update w.hand .fetcher (w.hand .fetcher ++ [id]) }
  | .act _ _ => w

def pass (w : World A B) (q : Lane) (env : Env) : World A B :=
  match w.job (.processor q) with
  | .done _ => { w.begin (.processor q) (workerTask env q) with env := Function.update w.env q env }
  | .act _ _ => w

def refill (w : World A B) : World A B :=
  match w.job .memorymanager with
  | .done _ => w.begin .memorymanager managerPass
  | .act _ _ => w

def step (w : World A B) : Event A B → World A B
  | .deliver env id ret p => w.deliver env id ret p
  | .pass q env => w.pass q env
  | .refill => w.refill
  | .act th x => w.act th x
  | .remove a => { w with live := Function.update w.live a false }

/-- All threads have been created; the head of the staging queue is an uninitialized local variable
of the memory manager. -/
def start (garbage : PacketHead B) (env : Env) : World A B where
  mem := ⟨fun _ => none, fun n => if n = .staging then garbage else {}⟩
  allocated := 0
  live _ := false
  job th := if th = .memorymanager then managerStart else .done ()
  env _ := env
  ever := []
  owed _ := 0
  held _ := []
  took _ := []
  gave _ := []
  lost := []
  delivered := []
  hand _ := []
  arrived _ := []
  verdicts := []

def nextOf (w : World A B) : Event A B → Option (Act A B)
  | .act th _ => (w.job th).head?
  | _ => none

/-- `calloc` returns a block that is not in use. -/
def Fresh (w : World A B) (e : Event A B) : Prop :=
  ∀ a ∈ w.nextOf e, a.allocates → ∀ b ∈ e.calloc, w.mem.heap b = none

/-- There is room in `allocatedpacketbuffers`. -/
def Room (w : World A B) (e : Event A B) : Prop :=
  ∀ a ∈ w.nextOf e, a.allocates → w.ever.length + 1 < 4294967296

def Calm (w : World A B) (e : Event A B) : Prop :=
  ∀ a ∈ w.nextOf e, (a.resetsAllocated → w.allocated = 0) ∧
    (a.resetsPool → (w.mem.head .pool).qlen = 0)

/-- The second look at the neighbors confirms the first. -/
def Steady (w : World A B) (e : Event A B) : Prop :=
  ∀ id ∈ (w.nextOf e).bind Act.verifies, ∀ ns ∈ e.neighbors, verifyNeighborInDomain ns id = true

section Decidable

variable (w : World A B) (e : Event A B)

instance : Decidable (w.Fresh e) := by
  unfold Fresh
  infer_instance

instance : Decidable (w.Room e) := by
  unfold Room
  infer_instance

instance : Decidable (w.Calm e) := by
  unfold Calm
  infer_instance

instance : Decidable (w.Steady e) := by
  unfold Steady
  infer_instance

end Decidable

end World

end Opennop
