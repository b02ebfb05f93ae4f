import Opennop.Cli.Context
import Opennop.Lib.Bytes
import Opennop.Lib.Walk
import Opennop.Wccp.Message

/-!
# Service groups, commands and received messages (`opennopd/subsystems/wccpv2.c`)

The list of the service groups with their servers and web-caches. Memory does not run out: `malloc`
hands out one address after the other, for each kind of structure. Two things let the lists grow:
the commands `wccp` and `server`, and I_SEE_YOU messages. The message that a router sends is in the
memory `buf`; a component is the position of its first byte. `inet_pton` is a parameter, log
messages are left out, and so is the second loop of `process_wccp_router_view_component`, which only
logs.
-/

namespace Opennop

open Mem

structure WccpState where
  /-- `wccp_service_groups` -/
  serviceGroups : ListHead Nat := {}
  groupItem : Nat → ListItem Nat := fun _ => {}
  group : Nat → WccpServiceGroup Nat Nat := fun _ => ⟨0, 0, {}, {}⟩
  heap : WccpHeap Nat Nat := ⟨fun _ => {}, fun _ => ⟨0, 0⟩, fun _ => {}, fun _ => 0⟩
  groupsAllocated : Nat := 0
  serversAllocated : Nat := 0
  webcachesAllocated : Nat := 0

/-! ## Lookup -/

/-- The loop of the functions that look for an item. A list without a cycle is left after as many
passes as there are items. -/
def findItem (items : Nat → ListItem Nat) (hit : Nat → Bool) (allocated : Nat)
    (head : ListHead Nat) :
    Exec (Option Nat) :=
  search (fun a => .ok (searchStep (fun a => (items a).next) hit a)) (allocated + 1) head.next

namespace WccpState

/-- `find_wccp_service_group` -/
def findWccpServiceGroup (st : WccpState) (servicegroup : UInt8) : Exec (Option Nat) :=
  findItem st.groupItem (fun g => (st.group g).groupId = servicegroup) st.groupsAllocated
    st.serviceGroups

/-- `find_wccp_server` -/
def findWccpServer (st : WccpState) (g : Nat) (serverip : UInt32) : Exec (Option Nat) :=
  findItem st.heap.serverItem (fun a => (st.heap.server a).ipaddress = serverip) st.serversAllocated
    (st.group g).servers

/-- `find_wccp_webcache` -/
def findWccpWebcache (st : WccpState) (g : Nat) (webcacheip : UInt32) : Exec (Option Nat) :=
  findItem st.heap.webcacheItem (fun a => st.heap.webcache a = webcacheip) st.webcachesAllocated
    (st.group g).webcaches

/-! ## New items -/

/-- `allocate_wccp_service_group` and `insert_list_item` -/
def insertServiceGroup (st : WccpState) (servicegroup : UInt8) : Exec WccpState := do
  let g := st.groupsAllocated
  let (serviceGroups, groupItem) ← insertListItem st.serviceGroups
    (Function.update st.groupItem g {}) (some g)
  return { st with
    serviceGroups, groupItem
    group := Function.update st.group g ⟨servicegroup, 0, {}, {}⟩
    groupsAllocated := g + 1 }

/-- `allocate_wccp_server` and `insert_list_item` -/
def insertServer (st : WccpState) (g : Nat) (serverip : UInt32) : Exec WccpState := do
  let a := st.serversAllocated
  let (servers, serverItem) ← insertListItem (st.group g).servers
    (Function.update st.heap.serverItem a {}) (some a)
  return { st with
    group := Function.update st.group g { st.group g with servers }
    heap := { st.heap with serverItem, server := Function.update st.heap.server a ⟨serverip, 0⟩ }
    serversAllocated := a + 1 }

/-- `allocate_wccp_webcache` and `insert_list_item` -/
def insertWebcache (st : WccpState) (g : Nat) (webcacheip : UInt32) : Exec WccpState := do
  let a := st.webcachesAllocated
  let (webcaches, webcacheItem) ←
    insertListItem (st.group g).webcaches (Function.update st.heap.webcacheItem a {}) (some a)
  return { st with
    group := Function.update st.group g { st.group g with webcaches }
    heap := { st.heap with webcacheItem, webcache := Function.update st.heap.webcache a webcacheip }
    webcachesAllocated := a + 1 }

/-! ## Commands -/

/-- `isstringdigits` -/
def isstringdigits (string : Token) : Bool := string.all Char.isDigit

/-- `atoi` of a string of digits: `strtol`, which stops at the largest `long`, cut to an `int`. -/
def atoi (string : Token) : Int :=
  Int.bmod (min (Nat.ofDigitChars 10 string 0) 9223372036854775807 : Nat) 4294967296

variable {M : Type} (cliWccpMode : M)

/-- `cli_enter_wccp_mode` -/
def cliEnterWccpMode (st : WccpState) : List Token → Exec (CommandResult M Nat × WccpState)
  | [parameter] =>
    if isstringdigits parameter ∧ 0 ≤ atoi parameter ∧ atoi parameter ≤ 254 then do
      let servicegroup := UInt8.ofNat (atoi parameter).toNat
      match ← st.findWccpServiceGroup servicegroup with
      | some g => return ({ mode := some cliWccpMode, data := some g }, st)
      | none =>
        let g := st.groupsAllocated
        let st ← st.insertServiceGroup servicegroup
        return ({ mode := some cliWccpMode, data := some g }, st)
    else .ok ({}, st)
  | _ => .ok ({}, st)

/-- `cli_wccp_server` -/
def cliWccpServer (inetPton : Token → Option UInt32) (st : WccpState) (parameters : List Token) :
    Option Nat → Exec (CommandResult M Nat × WccpState)
  | none => .ok ({}, st)
  | some g =>
    let result : CommandResult M Nat := { mode := some cliWccpMode, data := some g }
    match parameters with
    | [parameter] =>
      match inetPton parameter with
      | none => .ok (result, st)
      | some serverIP => do
        match ← st.findWccpServer g serverIP with
        | some _ => return (result, st)
        | none =>
          let st ← st.insertServer g serverIP
          return (result, st)
    | _ => .ok (result, st)

/-! ## Received messages -/

/-- One pass of the first loop of `process_wccp_router_view_component`. -/
def learnWebcache (st : WccpState) (g : Nat) (cacheIp : UInt32) : Exec WccpState := do
  match ← st.findWccpWebcache g cacheIp with
  | some _ => return st
  | none => st.insertWebcache g cacheIp

/-- That loop: `webcache` is moved on behind it, so that every pass is about the same element. -/
def learnWebcaches (g : Nat) (cacheIp : UInt32) : (passes : Nat) → WccpState → Exec WccpState
  | 0, st => .ok st
  | passes + 1, st => do
    let st ← st.learnWebcache g cacheIp
    learnWebcaches g cacheIp passes st

/-- `this_wccp_service_group->change_number = v` -/
def setChangeNumber (st : WccpState) (g : Nat) (v : UInt32) : WccpState :=
  { st with group := Function.update st.group g { st.group g with changeNumber := v } }

/-- `this_wccp_server->router_id = v` -/
def setRouterId (st : WccpState) (a : Nat) (v : UInt32) : WccpState :=
  { st with
    heap := { st.heap with
      server := Function.update st.heap.server a { st.heap.server a with routerId := v } } }

/-- `process_wccp_router_view_component` -/
def processWccpRouterViewComponent (st : WccpState) (g : Nat) (buf : Mem) (component : Nat) :
    Exec WccpState :=
  let changeNumber := UInt32.ofNat (buf.be32 (component + 4))
  if changeNumber ≠ (st.group g).changeNumber then
    let st := st.setChangeNumber g changeNumber
    let numRouters := component + 16
    let numWebcaches := numRouters + 4 * buf.be32 numRouters + 4
    if buf.be32 numWebcaches > 0 then
      learnWebcaches g (UInt32.ofNat (buf.le32 (numWebcaches + 4))) (buf.be32 numWebcaches) st
    else .ok st
  else .ok st

/-- `process_wccp_router_id_component` -/
def processWccpRouterIdComponent (st : WccpState) (g : Nat) (buf : Mem) (component : Nat) :
    Exec WccpState := do
  match ← st.findWccpServer g (UInt32.ofNat (buf.le32 (component + 4))) with
  | none => return st
  | some a =>
    let st := st.setRouterId a (UInt32.ofNat (buf.be32 (component + 8)))
    st.processWccpRouterViewComponent g buf (component + buf.be16 (component + 2) + 4)

/-- `process_wccp_service_component`. The one-byte ID is swapped as a 16-bit value, and cut to a
byte again for the lookup. -/
def processWccpServiceComponent (st : WccpState) (buf : Mem) (component : Nat) :
    Exec WccpState := do
  match ← st.findWccpServiceGroup (UInt8.ofNat (htons (buf (component + 5)).toNat)) with
  | none => return st
  | some g => st.processWccpRouterIdComponent g buf (component + buf.be16 (component + 2) + 4)

/-- `process_wccp_security_component` -/
def processWccpSecurityComponent (st : WccpState) (buf : Mem) (component : Nat) : Exec WccpState :=
  st.processWccpServiceComponent buf (component + buf.be16 (component + 2) + 4)

/-- `wccp_handler` -/
def wccpHandler (st : WccpState) (buf : Mem) : Exec WccpState :=
  if buf.be32 0 = WccpMsgType.iSeeYou.toNat then st.processWccpSecurityComponent buf 8 else .ok st

end WccpState

end Opennop
