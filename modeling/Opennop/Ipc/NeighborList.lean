import Mathlib.Data.Fintype.Card
import Opennop.Ipc.Neighbor
import Opennop.Lib.Walk

/-!
# The list of neighbors (`opennopd/subsystems/ipc.c`)

The doubly linked list `ipchead` that the commands `neighbor` and `no neighbor` maintain, on its
pointers. `A` is the type of the addresses that `malloc` hands out; when it has none left the daemon
exits. The block it returns may hold anything. The name of a neighbor is left out, nothing reads it.
`inet_pton` is a parameter.
-/

namespace Opennop

structure CString where
  chars : List UInt8
  ne_zero : ∀ c ∈ chars, c ≠ 0

/-- The string at `a` in an array that ends after `n` more bytes; there is none without a NUL. -/
def cString (m : Mem) (a : Nat) : Nat → Option (List UInt8)
  | 0 => none
  | n + 1 => if m a = 0 then some [] else (cString m (a + 1) n).map (m a :: ·)

/-- `OPENNOP_IPC_KEY_LENGTH` -/
def opennopIpcKeyLength : Nat := 65

/-- The fields of `struct neighbor` but for the links. -/
structure NeighborEntry where
  /-- `NeighborIP` -/
  neighborIP : Nat
  state : NeighborState
  id : OpennopId
  sock : Nat
  key : Mem
  hellotimer : Int
  timer : Int

/-- `struct neighbor` -/
structure NeighborNode (A : Type) where
  next : Option A := none
  prev : Option A := none
  entry : NeighborEntry

/-- `struct neighbor_head` -/
structure NeighborHead (A : Type) where
  next : Option A := none
  prev : Option A := none

/-- `ipchead` and the blocks of the neighbors. -/
structure NeighborList (A : Type) where
  ipchead : NeighborHead A := {}
  heap : A → Option (NeighborNode A) := fun _ => none

/-- What `malloc` and the two calls of `time` give to `allocate_neighbor`. -/
structure Malloc (A : Type) where
  block : A
  garbage : NeighborEntry
  timer : Int
  hellotimer : Int

/-! ## Entries -/

/-- `set_neighbor_key` -/
def setNeighborKey (e : NeighborEntry) (key : Option CString) : NeighborEntry :=
  let zeroed := e.key.fill 0 opennopIpcKeyLength 0
  match key with
  | some key => { e with key := zeroed.write 0 key.chars }
  | none => { e with key := zeroed }

/-- `allocate_neighbor`, with the memory it gets -/
def allocateNeighbor {A : Type} (m : Malloc A) (neighborIP : Nat) (key : Option CString) :
    NeighborEntry :=
  let e : NeighborEntry :=
    { neighborIP := 0
      state := .down
      id := { m.garbage.id with b0 := 0 }
      sock := 0
      key := m.garbage.key.set 0 0
      timer := m.timer
      hellotimer := m.hellotimer }
  let e := if neighborIP ≠ 0 then { e with neighborIP } else e
  match key with
  | some key => setNeighborKey e (some key)
  | none => e

namespace NeighborList

variable {A : Type}

def next (t : NeighborList A) (a : A) : Option A := (t.heap a).bind NeighborNode.next

def prev (t : NeighborList A) (a : A) : Option A := (t.heap a).bind NeighborNode.prev

def load (t : NeighborList A) (a : A) : Exec (NeighborNode A) :=
  match t.heap a with
  | some n => .ok n
  | none => .error .segv

/-! ## Lookup -/

def walkPass (t : NeighborList A) (neighborIP : Nat) (a : A) : Exec (Pass A (Option A)) := do
  let n ← t.load a
  if n.entry.neighborIP = neighborIP then return .done (some a)
  else
    match n.next with
    | some b => return .again b
    | none => return .done none

/-- The walk over the list that each function below starts with. One with more steps than there are
blocks never ends. -/
def walk [Fintype A] (t : NeighborList A) (neighborIP : Nat) : Exec (Option A) :=
  search (t.walkPass neighborIP) (Fintype.card A + 1) t.ipchead.next

/-- `find_neighbor_by_addr` -/
def findNeighborByAddr [Fintype A] (t : NeighborList A) (addr : Nat) : Exec (Option A) :=
  t.walk addr

/-- `find_neighbor_by_u32` -/
def findNeighborByU32 [Fintype A] (t : NeighborList A) (neighborIP : Nat) : Exec (Option A) :=
  t.walk neighborIP

/-! ## Changes -/

section Changes

variable [DecidableEq A]

def store (t : NeighborList A) (a : A) (n : NeighborNode A) : NeighborList A :=
  { t with heap := Function.update t.heap a (some n) }

/-- `a->next = v` -/
def setNext (t : NeighborList A) (a : A) (v : Option A) : Exec (NeighborList A) := do
  let n ← t.load a
  return t.store a { n with next := v }

/-- `a->prev = v` -/
def setPrev (t : NeighborList A) (a : A) (v : Option A) : Exec (NeighborList A) := do
  let n ← t.load a
  return t.store a { n with prev := v }

def modify (t : NeighborList A) (a : A) (f : NeighborEntry → NeighborEntry) :
    Exec (NeighborList A) := do
  let n ← t.load a
  return t.store a { n with entry := f n.entry }

/-- `free(a)` -/
def free (t : NeighborList A) (a : A) : NeighborList A :=
  { t with heap := Function.update t.heap a none }

/-- The part of `add_update_neighbor` that puts a new neighbor at the end of the list. -/
def link (t : NeighborList A) (a : A) : Exec (NeighborList A) :=
  match t.ipchead.next with
  | none => .ok { t with ipchead := { next := some a, prev := some a } }
  | some _ => do
    let t ← t.setPrev a t.ipchead.prev
    match t.ipchead.prev with
    | none => .error .segv
    | some last =>
      let t ← t.setNext last (some a)
      return { t with ipchead := { t.ipchead with prev := some a } }

/-- `add_update_neighbor` -/
def addUpdateNeighbor [Fintype A] (t : NeighborList A) (m : Malloc A) (neighborIP : Nat)
    (key : Option CString) : Exec (NeighborList A) := do
  match ← t.walk neighborIP with
  | some a => t.modify a (setNeighborKey · key)
  | none => (t.store m.block { entry := allocateNeighbor m neighborIP key }).link m.block

/-- The part of `del_neighbor` that takes the neighbor `n` at `a` out of the list. -/
def unlink (t : NeighborList A) (n : NeighborNode A) : Exec (NeighborList A) :=
  match n.prev, n.next with
  | none, none => .ok { t with ipchead := { next := none, prev := none } }
  | none, some next => do
    let t ← { t with ipchead := { t.ipchead with next := some next } }.setPrev next none
    return t
  | some prev, none => do
    let t ← { t with ipchead := { t.ipchead with prev := some prev } }.setNext prev none
    return t
  | some prev, some next => do
    let t ← t.setNext prev (some next)
    t.setPrev next (some prev)

/-- `del_neighbor` -/
def delNeighbor [Fintype A] (t : NeighborList A) (neighborIP : Nat) : Exec (NeighborList A) := do
  match ← t.walk neighborIP with
  | some a =>
    let n ← t.load a
    let t ← t.unlink n
    return t.free a
  | none => return t

/-- `validate_neighbor_input`; the help text is left out. -/
def validateNeighborInput (inetPton : CString → Option Nat) (t : NeighborList A)
    (stringip : CString) (key : Option CString)
    (neighborCommand : Nat → Option CString → Exec (NeighborList A)) :
    Exec (NeighborList A) :=
  match inetPton stringip with
  | none => .ok t
  | some neighborIP =>
    match key with
    | some k => if k.chars.length > 64 then .ok t else neighborCommand neighborIP key
    | none => neighborCommand neighborIP key

/-- `cli_neighbor` -/
def cliNeighbor [Fintype A] (inetPton : CString → Option Nat) (t : NeighborList A) (m : Malloc A) :
    List CString → Exec (NeighborList A)
  | [stringip] => validateNeighborInput inetPton t stringip none (t.addUpdateNeighbor m)
  | [stringip, key] => validateNeighborInput inetPton t stringip (some key) (t.addUpdateNeighbor m)
  | _ => .ok t

/-- `cli_no_neighbor` -/
def cliNoNeighbor [Fintype A] (inetPton : CString → Option Nat) (t : NeighborList A) :
    List CString → Exec (NeighborList A)
  | [stringip] =>
    validateNeighborInput inetPton t stringip none fun neighborIP _ => t.delNeighbor neighborIP
  | _ => .ok t

end Changes

end NeighborList

end Opennop
