import Opennop.Session.Basic

/-!
# Neighbors (`include/ipc.h`, `opennopd/subsystems/ipc.c`)

The other accelerators a node knows. The linked list `ipchead` is a list here; the name of a
neighbor is left out, nothing reads it.
-/

namespace Opennop

/-- `neighborstate` -/
inductive NeighborState where
  | down
  | attempt
  | established
  | shuttingdown
  | up
  deriving DecidableEq, Repr

def NeighborState.toNat : NeighborState → Nat
  | down => 0
  | attempt => 1
  | established => 2
  | shuttingdown => 3
  | up => 4

/-- A key: a C string of at most 64 characters, the length that the CLI accepts. -/
structure IpcKey where
  chars : List UInt8
  length_le : chars.length ≤ 64
  ne_zero : ∀ c ∈ chars, c ≠ 0
  deriving DecidableEq

theorem IpcKey.length_nil_le : ([] : List UInt8).length ≤ 64 := by decide

theorem IpcKey.ne_zero_of_nil : ∀ c ∈ ([] : List UInt8), c ≠ 0 := nofun

def IpcKey.empty : IpcKey := ⟨[], IpcKey.length_nil_le, IpcKey.ne_zero_of_nil⟩

/-- The first 64 bytes of `char key[OPENNOP_IPC_KEY_LENGTH]`, which is zeroed before the string is
copied. -/
def IpcKey.block (k : IpcKey) : List UInt8 := k.chars ++ List.replicate (64 - k.chars.length) 0

/-- `strcmp(key, "") == 0` -/
def IpcKey.isEmpty (k : IpcKey) : Bool := k.chars.isEmpty

/-- `struct neighbor` -/
structure Neighbor where
  /-- `NeighborIP` -/
  neighborIP : Nat
  state : NeighborState := .down
  id : OpennopId := .zero
  sock : Nat := 0
  key : IpcKey := ⟨[], by decide, by simp⟩
  hellotimer : Int := 0
  timer : Int := 0
  deriving DecidableEq

/-- `verify_neighbor_in_domain` -/
def verifyNeighborInDomain (neighbors : List Neighbor) (id : OpennopId) : Bool :=
  neighbors.any fun n => compareOpennopid n.id id && n.state == .up

/-- `find_neighbor_by_addr` and `find_neighbor_by_u32`, as the position in the list -/
def findNeighborByAddr (neighbors : List Neighbor) (addr : Nat) : Option Nat :=
  neighbors.findIdx? fun n => n.neighborIP == addr

end Opennop
