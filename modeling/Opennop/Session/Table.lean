import Mathlib.Data.Fintype.Card
import Mathlib.Logic.Function.Basic
import Opennop.Lib.Exec
import Opennop.Session.Basic

/-!
# The session table (`opennopd/sessionmanager.c`, `opennopd/subsystems/sessioncleanup.c`)

Sessions are blocks of the C heap, linked both ways in one of 65536 buckets. `A` is the type of the
addresses the allocator can hand out for them; `calloc` is given by its result. Using a null pointer
or an address that is not allocated is a fault. `workers[i].sessions` is part of the state because
insertion reads it. The calls of `sendkeepalive` change no table: they are in `Session.Keepalive`.
-/

namespace Opennop

/-- `struct session_head` -/
@[ext]
structure SessionHead (A : Type) where
  next : Option A := none
  prev : Option A := none
  qlen : Nat := 0

/-- A block of type `struct session`: `head` is the index of the bucket. -/
structure Node (A : Type) where
  head : Nat
  next : Option A := none
  prev : Option A := none
  session : Session

/-- The heap, the heads of the buckets and `workers[i].sessions`. -/
@[ext]
structure Table (A : Type) where
  heap : A → Option (Node A)
  bucket : Nat → SessionHead A
  sessions : Nat → Nat

def initializeSessiontable (A : Type) : Table A := ⟨fun _ => none, fun _ => {}, fun _ => 0⟩

/-! ## Hashing -/

/-- `sessionhash`, with the parameters in the order of its declaration. -/
def sessionhash (largerIP largerIPPort smallerIP smallerIPPort : Nat) : Nat :=
  let hash1 := ((largerIP ^^^ smallerIP) >>> 16) % 65536
  let hash2 := (largerIP ^^^ smallerIP) % 65536
  let hash3 := hash1 ^^^ hash2
  let hash4 := largerIPPort ^^^ smallerIPPort
  hash3 ^^^ hash4

/-- The hash as both callers compute it: the second and third arguments change places, and the
address that is passed for a port loses its upper half. -/
def hashOf (k : Key) : Nat :=
  sessionhash k.largerIP (k.smallerIP % 65536) k.largerIPPort k.smallerIPPort

namespace Table

variable {A : Type}

def next (t : Table A) (a : A) : Option A := (t.heap a).bind Node.next

def prev (t : Table A) (a : A) : Option A := (t.heap a).bind Node.prev

def load (t : Table A) (a : A) : Exec (Node A) :=
  match t.heap a with
  | some n => .ok n
  | none => .error .segv

section Update

variable [DecidableEq A]

def store (t : Table A) (a : A) (n : Node A) : Table A :=
  { t with heap := Function.update t.heap a (some n) }

/-- `a->next = v` -/
def setNext (t : Table A) (a : A) (v : Option A) : Exec (Table A) := do
  let n ← t.load a
  return t.store a { n with next := v }

/-- `a->prev = v` -/
def setPrev (t : Table A) (a : A) (v : Option A) : Exec (Table A) := do
  let n ← t.load a
  return t.store a { n with prev := v }

def modify (t : Table A) (a : A) (f : Session → Session) : Exec (Table A) := do
  let n ← t.load a
  return t.store a { n with session := f n.session }

end Update

def setBucket (t : Table A) (b : Nat) (h : SessionHead A) : Table A :=
  { t with bucket := fun x => if x = b then h else t.bucket x }

/-- `increment_worker_sessions` -/
def incrementWorkerSessions (t : Table A) (i : Nat) : Table A :=
  { t with sessions := Function.update t.sessions i ((t.sessions i + 1) % 4294967296) }

/-- `decrement_worker_sessions` -/
def decrementWorkerSessions (t : Table A) (i : Nat) : Table A :=
  { t with sessions := Function.update t.sessions i ((t.sessions i + 4294967295) % 4294967296) }

end Table

/-! ## Insertion -/

/-- The loop of `insertsession` that looks for the worker with the fewest sessions. -/
def pickQueue (workers : Nat) (sessions : Nat → Nat) : Nat :=
  (List.range workers).foldl
  (fun queuenum i => if sessions queuenum > sessions i then i else queuenum)
    0

/-- The record `insertsession` writes into the zeroed block. -/
def newSession (k : Key) (queuenum : Nat) : Session where
  larger := { address := k.largerIP, port := k.largerIPPort }
  smaller := { address := k.smallerIP, port := k.smallerIPPort }
  queue := queuenum

section Operations

variable {A : Type} [DecidableEq A]

/-- `insertsession`; `workers` is `get_workers()` and `calloc` the result of the allocation. -/
def insertsession (workers : Nat) (t : Table A) (calloc : Option A) (k : Key) :
    Exec (Table A × Option A) :=
  let hash := hashOf k
  let queuenum := pickQueue workers t.sessions
  match calloc with
  | none => .ok (t, none)
  | some a => do
    let t := t.store a { head := hash, session := newSession k queuenum }
    let t := t.incrementWorkerSessions queuenum
    let h := t.bucket hash
    let t ←
      if h.qlen = 0 then pure (t.setBucket hash { h with next := some a, prev := some a })
      else do
        let t ← t.setPrev a h.prev
        match h.prev with
        | none => .error .segv
        | some last =>
          let t ← t.setNext last (some a)
          pure (t.setBucket hash { h with prev := some a })
    let h := t.bucket hash
    return (t.setBucket hash { h with qlen := (h.qlen + 1) % 4294967296 }, some a)

/-! ## Lookup -/

/-- One pass of the loop of `getsession`. -/
def getsessionPass (t : Table A) (k : Key) (a : A) : Exec (Pass A (Option A)) := do
  let n ← t.load a
  if n.session.key = k then return .done (some a)
  else
    match n.next with
    | some b => return .again b
    | none => return .done none

/-- `getsession`. A walk with more steps than there are blocks never ends. -/
def getsession [Fintype A] (t : Table A) (k : Key) : Exec (Option A) :=
  match (t.bucket (hashOf k)).next with
  | none => .ok none
  | some a => loop (getsessionPass t k) (Fintype.card A + 1) a

/-! ## Removal -/

/-- `clearsession` of a pointer that is not null. -/
def clearsession (t : Table A) (a : A) : Exec (Table A) := do
  let n ← t.load a
  let h := t.bucket n.head
  let t ←
    match n.next, n.prev with
    | none, none => pure (t.setBucket n.head { h with next := none, prev := none })
    | some next, none => do
      let t ← t.setPrev next none
      pure (t.setBucket n.head { h with next := some next })
    | none, some prev => do
      let t ← t.setNext prev none
      pure (t.setBucket n.head { h with prev := some prev })
    | some next, some prev => do
      let t ← t.setNext prev (some next)
      t.setPrev next (some prev)
  let h := t.bucket n.head
  let t := t.setBucket n.head { h with qlen := (h.qlen + 4294967295) % 4294967296 }
  let t := t.decrementWorkerSessions n.session.queue
  return { t with heap := Function.update t.heap a none }

/-! ## The sweep for dead sessions -/

/-- What `cleanuplist` does to the record of a session that stays. -/
def age (s : Session) : Session :=
  let deadcounter :=
    if s.larger.sequence = s.larger.previoussequence then (s.deadcounter + 1) % 256
    else if s.smaller.sequence = s.smaller.previoussequence then (s.deadcounter + 1) % 256
    else 0
  { s with
    deadcounter
    larger := { s.larger with previoussequence := s.larger.sequence }
    smaller := { s.smaller with previoussequence := s.smaller.sequence } }

/-- One pass of the loop of `cleanuplist`. -/
def cleanuplistPass : Table A × A → Exec (Pass (Table A × A) (Table A))
  | (t, cur) => do
    let n ← t.load cur
    if n.session.deadcounter > 2 then
      match n.next with
      | some next =>
        let m ← t.load next
        match m.prev with
        | some prev =>
          let t ← clearsession t prev
          return .again (t, next)
        | none => return .again (t, next)
      | none =>
        let t ← clearsession t cur
        return .done t
    else
      let t := t.store cur { n with session := age n.session }
      match n.next with
      | some next => return .again (t, next)
      | none => return .done t

/-- `cleanuplist(getsessionhead(b))` -/
def cleanuplist [Fintype A] (t : Table A) (b : Nat) : Exec (Table A) :=
  match (t.bucket b).next with
  | none => .ok t
  | some a => loop cleanuplistPass (Fintype.card A + 1) (t, a)

end Operations

end Opennop
