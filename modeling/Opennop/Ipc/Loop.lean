import Opennop.Ipc.Message
import Opennop.Lib.Trace

/-!
# The IPC thread (`opennopd/sockets.c`, `opennopd/subsystems/ipc.c`)

`epoll_handler` with `ipc_check_neighbor`, `ipc_handler` and `hello_neighbors` as its functions, and
the sockets of the operating system below it. A step is one pass of the loop over the neighbors, one
accepted connection, one event on a descriptor, or a command of the operator; `epoll_handler` makes
them in rounds, the runs here in any order. What the operating system answers is part of the step.
It may give any descriptor number that is not in use; `Allowed` says so. A socket remembers the
bytes that came in on it and the messages that were processed for it, which the code does not.
-/

namespace Opennop

/-- A connected stream socket. `connected` is lost when the peer resets the connection:
`getpeername` and `send` fail from then on. -/
structure Socket where
  peer : Nat
  connected : Bool := true
  received : List UInt8 := []
  handled : List (List UInt8) := []
  deriving DecidableEq

/-- One call of `server->callback`: the descriptor, the bytes received on it in this event, and the
message at the front of the buffer, if `ipc_handler` takes it for one. -/
structure Callback where
  fd : Nat
  received : List UInt8
  processed : Option (List UInt8)

structure Loop where
  /-- `char buf[IPC_MAX_MESSAGE_SIZE]` of `epoll_handler` -/
  buf : Mem
  node : IpcNode
  /-- The open descriptors. -/
  sockets : Nat → Option Socket
  /-- The sockets that were closed. -/
  closed : List Socket
  /-- The calls of the callback, the last one first. -/
  log : List Callback

/-- How a loop of `recv` calls ends: `EAGAIN`, another error, or end of file. -/
inductive RecvEnd where
  | again
  | error
  | eof
  deriving DecidableEq

/-- What the operating system answers to a pass of `hello_neighbors`: the descriptor of a new
connection, and whether a message can be sent. -/
structure HelloAnswer where
  connect : Option Nat := none
  sendFails : Bool := false

inductive IpcStep where
  /-- The pass of `hello_neighbors` for the entry at a position. -/
  | hello (i : Nat) (now : Int) (answer : HelloAnswer)
  /-- A connection that `accept` returns. -/
  | accept (fd peer : Nat) (now : Int)
  /-- An event with data to read: what each `recv` returned, and how they ended. -/
  | data (fd : Nat) (chunks : List (List UInt8)) (fin : RecvEnd) (now : Int)
  /-- An event with `EPOLLERR` or `EPOLLHUP`, or without `EPOLLIN`. -/
  | hangup (fd : Nat)
  /-- The peer of a socket resets the connection. -/
  | reset (fd : Nat)
  /-- The commands `neighbor` and `no neighbor`. -/
  | addUpdate (ip : Nat) (key : IpcKey) (now : Int)
  | delete (ip : Nat)

namespace Loop

/-! ## Sockets -/

/-- The address `getpeername` gives. -/
def getpeername (s : Loop) (fd : Nat) : Option Nat :=
  (s.sockets fd).bind fun k => if k.connected then some k.peer else none

def setSocket (s : Loop) (fd : Nat) (k : Option Socket) : Loop :=
  { s with sockets := Function.update s.sockets fd k }

/-- `close` -/
def close (s : Loop) (fd : Nat) : Loop :=
  match s.sockets fd with
  | some k => { s.setSocket fd none with closed := k :: s.closed }
  | none => s

def setNeighbors (s : Loop) (neighbors : List Neighbor) : Loop :=
  { s with node := { s.node with neighbors } }

def modifyNeighbor (s : Loop) (i : Nat) (f : Neighbor → Neighbor) : Loop :=
  s.setNeighbors (s.node.neighbors.modify i f)

/-- `send` fails: the operating system says so, or there is no connection. -/
def sendFails (s : Loop) (fd : Nat) (answer : HelloAnswer) : Bool :=
  answer.sendFails || (s.getpeername fd).isNone

/-! ## `hello_neighbors` -/

/-- A hello for the entry `n` at position `i`, which has a socket. -/
def sayHello (s : Loop) (i : Nat) (n : Neighbor) (now : Int) (answer : HelloAnswer) : Loop :=
  let s := s.modifyNeighbor i fun n => { n with hellotimer := now }
  let s :=
    if n.state = .up ∧ now - n.timer > 30 then
      s.setNeighbors (ipcSetNeighborState now (s.getpeername n.sock) .down s.node.neighbors)
    else s
  if s.sendFails n.sock answer then
    (s.modifyNeighbor i fun n => { n with state := .down, sock := 0 }).close n.sock
  else s

/-- One pass of the loop of `hello_neighbors`. -/
def helloNeighbor (s : Loop) (i : Nat) (now : Int) (answer : HelloAnswer) : Loop :=
  match s.node.neighbors[i]? with
  | none => s
  | some n =>
    if n.state = .down ∧ now - n.hellotimer ≥ 30 then
      if n.sock = 0 then
        match answer.connect with
        | some fd =>
          (s.modifyNeighbor i fun n =>
            { n with hellotimer := now, sock := fd, state := .attempt }).setSocket fd
              (some { peer := n.neighborIP })
        | none => s.modifyNeighbor i fun n => { n with hellotimer := now }
      else s.modifyNeighbor i fun n => { n with hellotimer := now, state := .attempt }
    else if n.state.toNat ≥ NeighborState.attempt.toNat ∧ now - n.hellotimer ≥ 10 then
      if n.sock ≠ 0 then s.sayHello i n now answer else s
    else s

/-! ## `epoll_handler` -/

/-- A new connection: `ipc_check_neighbor` and what follows from its answer. -/
def acceptClient (s : Loop) (fd peer : Nat) (now : Int) : Loop :=
  match findNeighborBySocket (some peer) s.node.neighbors with
  | some i =>
    (s.modifyNeighbor i fun n =>
      { n with sock := fd, state := .attempt, timer := now }).setSocket fd (some { peer })
  | none => { s with closed := { peer } :: s.closed }

/-- The message that `ipc_handler` finds at the front of a buffer. -/
def frontMessage (m : Mem) : Option (List UInt8) :=
  if m 0 = msgTypeIpc then some (m.read 0 (msgLength m)) else none

/-- What a socket remembers of an event. -/
def Socket.note (k : Socket) (received : List UInt8) (processed : Option (List UInt8)) : Socket :=
  { k with received := k.received ++ received, handled := k.handled ++ processed.toList }

/-- The calls of `recv`, each of which writes to the start of the buffer. -/
def recvAll (buf : Mem) (chunks : List (List UInt8)) : Mem :=
  chunks.foldl (fun m chunk => m.write 0 chunk) buf

def receive (H : Hmac) (s : Loop) (fd : Nat) (chunks : List (List UInt8)) (now : Int) : Loop :=
  let buf := recvAll s.buf chunks
  let processed := frontMessage buf
  let r := ipcHandler H now s.node (s.getpeername fd) buf
  { s.setNeighbors r.neighbors with
    buf := r.buf
    log := ⟨fd, chunks.flatten, processed⟩ :: s.log
    sockets := Function.update s.sockets fd
      ((s.sockets fd).map fun k => Socket.note k chunks.flatten processed) }

/-- An event with data; at the end of the stream the descriptor is closed. -/
def readData (H : Hmac) (s : Loop) (fd : Nat) (chunks : List (List UInt8)) (fin : RecvEnd)
    (now : Int) : Loop :=
  let s := s.receive H fd chunks now
  if fin = .again then s else s.close fd

/-! ## Commands -/

/-- `add_update_neighbor` -/
def addUpdateNeighbor (s : Loop) (ip : Nat) (key : IpcKey) (now : Int) : Loop :=
  match findNeighborByAddr s.node.neighbors ip with
  | some i => s.modifyNeighbor i fun n => { n with key }
  | none => s.setNeighbors
      (s.node.neighbors ++ [{ neighborIP := ip, key, timer := now, hellotimer := now }])

/-- `del_neighbor` -/
def delNeighbor (s : Loop) (ip : Nat) : Loop :=
  match findNeighborByAddr s.node.neighbors ip with
  | some i => s.setNeighbors (s.node.neighbors.eraseIdx i)
  | none => s

def step (H : Hmac) (s : Loop) : IpcStep → Loop
  | .hello i now answer => s.helloNeighbor i now answer
  | .accept fd peer now => s.acceptClient fd peer now
  | .data fd chunks fin now => s.readData H fd chunks fin now
  | .hangup fd => s.close fd
  | .reset fd => s.setSocket fd ((s.sockets fd).map fun k => { k with connected := false })
  | .addUpdate ip key now => s.addUpdateNeighbor ip key now
  | .delete ip => s.delNeighbor ip

/-- What the operating system can answer: descriptors that are not in use for new connections, and
from a descriptor that is not open an error; `recv` returns between 1 and 1024 bytes. -/
def Allowed (s : Loop) : IpcStep → Prop
  | .hello _ _ answer => ∀ fd ∈ answer.connect, s.sockets fd = none
  | .accept fd _ _ => s.sockets fd = none
  | .data fd chunks fin _ => (s.sockets fd = none → chunks = [] ∧ fin = .error) ∧
      ∀ c ∈ chunks, 0 < c.length ∧ c.length ≤ 1024
  | _ => True

instance (s : Loop) : ∀ st, Decidable (s.Allowed st)
  | .hello _ _ answer => inferInstanceAs (Decidable (∀ fd ∈ answer.connect, s.sockets fd = none))
  | .accept fd _ _ => inferInstanceAs (Decidable (s.sockets fd = none))
  | .data fd chunks fin _ => inferInstanceAs (Decidable
      ((s.sockets fd = none → chunks = [] ∧ fin = .error) ∧
        ∀ c ∈ chunks, 0 < c.length ∧ c.length ≤ 1024))
  | .hangup _ | .reset _ | .addUpdate _ _ _ | .delete _ => inferInstanceAs (Decidable True)

/-- The thread at its start: an empty buffer, the configured neighbors without sockets. -/
structure Initial (s : Loop) : Prop where
  buf : s.buf = fun _ => 0
  sock : ∀ n ∈ s.node.neighbors, n.sock = 0
  distinct : (s.node.neighbors.map Neighbor.neighborIP).Nodup
  sockets : ∀ fd, s.sockets fd = none
  closed : s.closed = []
  log : s.log = []

end Loop

end Opennop
