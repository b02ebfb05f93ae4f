import Opennop.Lib.Fill
import Opennop.Wccp.Group

/-!
# WCCP messages (`opennopd/subsystems/wccpv2.c`)

The functions that build the messages to a router, on the zeroed buffer of `wccp_send_message`.
Every component is placed behind what the length field of the message header announces, and patches
its own length while it grows. `get_local_ip` is a parameter.
-/

namespace Opennop

open Mem

/-- `WCCP2_MSG_TYPE` -/
inductive WccpMsgType where
  | hereIAm
  | iSeeYou
  | redirectAssign
  | removalQuery
  deriving DecidableEq, Repr

def WccpMsgType.toNat : WccpMsgType → Nat
  | hereIAm => 10
  | iSeeYou => 11
  | redirectAssign => 12
  | removalQuery => 13

/-! ## Lengths -/

/-- `get_wccp_message_length` -/
def getWccpMessageLength (buf : Mem) : Nat := buf.be16 6 + 8

/-- `update_wccp_message_length`, with `ntohs(length)` -/
def updateWccpMessageLength (buf : Mem) (length : Nat) : Mem :=
  buf.setBe16 6 (buf.be16 6 + length + 4)

/-- `component->length = htons(ntohs(component->length) + v)` -/
def growComponent (buf : Mem) (component v : Nat) : Mem :=
  buf.setBe16 (component + 2) (buf.be16 (component + 2) + v)

/-- The bytes of an item of a list, and how it is written. -/
structure WccpElement (α : Type) where
  size : Nat
  put : Mem → Nat → α → Mem

section Build

variable {A B : Type}

/-! ## Components of a fixed size -/

/-- The two headers differ in the message type. -/
def wccpAddHeader (type : WccpMsgType) (buf : Mem) : Mem :=
  let buf := buf.setBe32 0 type.toNat
  let buf := buf.setBe16 4 0x200
  buf.setBe16 6 0

/-- `wccp_add_here_i_am_header` -/
def wccpAddHereIAmHeader (buf : Mem) : Mem := wccpAddHeader .hereIAm buf

/-- `wccp_add_redirect_assign_header` -/
def wccpAddRedirectAssignHeader (buf : Mem) : Mem := wccpAddHeader .redirectAssign buf

/-- `wccp_add_security_component` -/
def wccpAddSecurityComponent (buf : Mem) : Mem :=
  let component := getWccpMessageLength buf
  let buf := buf.setBe16 component 0
  let buf := buf.setBe16 (component + 2) 4
  let buf := buf.setBe32 (component + 4) 0
  updateWccpMessageLength buf (buf.be16 (component + 2))

/-- `htons` -/
def htons (v : Nat) : Nat := v % 256 * 256 + v / 256 % 256

/-- `wccp_add_service_component`. The group ID is brought into network order although its field has
one byte. The component is eight bytes longer than its structure; the ports are not written. -/
def wccpAddServiceComponent (group : WccpServiceGroup A B) (buf : Mem) : Mem :=
  let component := getWccpMessageLength buf
  let buf := buf.setBe16 component 1
  let buf := buf.setBe16 (component + 2) 24
  let buf := buf.set (component + 4) 1
  let buf := buf.set (component + 5) (UInt8.ofNat (htons group.groupId.toNat))
  let buf := buf.set (component + 6) 200
  let buf := buf.set (component + 7) 0
  let buf := buf.setBe32 (component + 8) 15
  updateWccpMessageLength buf (buf.be16 (component + 2))

/-- `wccp_add_webcache_id_component`. The buckets are not written. -/
def wccpAddWebcacheIdComponent (localIp : UInt32) (buf : Mem) : Mem :=
  let component := getWccpMessageLength buf
  let buf := buf.setBe16 component 3
  let buf := buf.setBe16 (component + 2) 44
  let buf := buf.setLe32 (component + 4) localIp.toNat
  let buf := buf.setBe16 (component + 8) 0
  let buf := buf.setBe16 (component + 44) 0
  let buf := buf.setBe16 (component + 46) 0
  updateWccpMessageLength buf (buf.be16 (component + 2))

/-- `wccp_add_capability_element` -/
def wccpAddCapabilityElement (buf : Mem) (component type value : Nat) : Mem :=
  let element := component + buf.be16 (component + 2) + 4
  let buf := buf.setBe16 element type
  let buf := buf.setBe16 (element + 2) 4
  let buf := buf.setBe32 (element + 4) value
  growComponent buf component 8

/-- `wccp_add_capability_info`: forwarding and return of packets by rewriting the link-layer
address. -/
def wccpAddCapabilityInfo (buf : Mem) : Mem :=
  let component := getWccpMessageLength buf
  let buf := buf.setBe16 component 8
  let buf := buf.setBe16 (component + 2) 0
  let buf := wccpAddCapabilityElement buf component 1 2
  let buf := wccpAddCapabilityElement buf component 3 2
  updateWccpMessageLength buf (buf.be16 (component + 2))

/-! ## Components with lists -/

/-- One pass of a loop that writes an element for each item of a list. -/
def elementPass {C α : Type} (item : C → ListItem C) (value : C → α) (element : WccpElement α)
    (component : Nat) : Option C × Nat × Mem → Exec (Pass (Option C × Nat × Mem) Mem)
  | (none, _, buf) => .ok (.done buf)
  | (some this, position, buf) =>
    let buf := element.put buf position (value this)
    let buf := growComponent buf component element.size
    .ok (.again ((item this).next, position + element.size, buf))

/-- A count and, behind it, an element for each item. A list is left after as many passes as it has
items. -/
def addElements {C α : Type} (head : ListHead C) (item : C → ListItem C) (value : C → α)
    (element : WccpElement α) (component position : Nat) (buf : Mem) : Exec Mem :=
  let buf := buf.setBe32 position head.count
  let buf := growComponent buf component 4
  loop (elementPass item value element component) (head.count + 1) (head.next, position + 4, buf)

/-- The position behind a count at `position` and the elements that it announces. -/
def behindElements {C α : Type} (head : ListHead C) (element : WccpElement α) (position : Nat) :
    Nat :=
  if head.count > 0 then position + 4 + head.count * element.size else position + 4

/-- `struct wccp_router_id_element` -/
def routerIdElement : WccpElement WccpServer where
  size := 8
  put buf position server :=
    (buf.setLe32 position server.ipaddress.toNat).setBe32 (position + 4) server.routerId.toNat

/-- `struct wccp_router_assignment_element` -/
def routerAssignmentElement (changeNumber : UInt32) : WccpElement WccpServer where
  size := 12
  put buf position server :=
    let buf := buf.setLe32 position server.ipaddress.toNat
    let buf := buf.setBe32 (position + 4) (server.routerId + 1).toNat
    buf.setBe32 (position + 8) changeNumber.toNat

/-- The address of a web-cache. -/
def webcacheElement : WccpElement UInt32 where
  size := 4
  put buf position ipaddress := buf.setLe32 position ipaddress.toNat

/-- `wccp_add_webcache_view_component` -/
def wccpAddWebcacheViewComponent (heap : WccpHeap A B) (group : WccpServiceGroup A B) (buf : Mem) :
    Exec Mem := do
  let component := getWccpMessageLength buf
  let buf := buf.setBe16 component 5
  let buf := buf.setBe16 (component + 2) 4
  let buf := buf.setBe32 (component + 4) group.changeNumber.toNat
  let numRouters := component + 8
  let buf ← addElements group.servers heap.serverItem heap.server routerIdElement component
    numRouters buf
  let numWebcaches := behindElements group.servers routerIdElement numRouters
  let buf ← addElements group.webcaches heap.webcacheItem heap.webcache webcacheElement component
    numWebcaches buf
  return updateWccpMessageLength buf (buf.be16 (component + 2))

/-- `wccp_add_assignment_info_component`: all 256 buckets go to the first web-cache. -/
def wccpAddAssignmentInfoComponent (heap : WccpHeap A B) (localIp : UInt32)
    (group : WccpServiceGroup A B) (buf : Mem) : Exec Mem := do
  let component := getWccpMessageLength buf
  let buf := buf.setBe16 component 6
  let buf := buf.setLe32 (component + 4) localIp.toNat
  let buf := buf.setBe32 (component + 8) group.changeNumber.toNat
  let buf := buf.setBe16 (component + 2) 8
  let numRouters := component + 12
  let buf ← addElements group.servers heap.serverItem heap.server
    (routerAssignmentElement group.changeNumber) component numRouters buf
  let numWebcaches :=
    behindElements group.servers (routerAssignmentElement group.changeNumber) numRouters
  let buf ← addElements group.webcaches heap.webcacheItem heap.webcache webcacheElement component
    numWebcaches buf
  let buckets := behindElements group.webcaches webcacheElement numWebcaches
  let buf := buf.fill buckets 256 0
  let buf := growComponent buf component 256
  return updateWccpMessageLength buf (buf.be16 (component + 2))

/-! ## Messages -/

/-- `wccp_send_message`: the bytes given to `send`, or nothing for the types that it does not
know. -/
def wccpSendMessage (heap : WccpHeap A B) (localIp : UInt32) (group : WccpServiceGroup A B)
    (messagetype : WccpMsgType) : Exec (Option (List UInt8)) :=
  let buf : Mem := fun _ => 0
  match messagetype with
  | .hereIAm => do
    let buf := wccpAddHereIAmHeader buf
    let buf := wccpAddSecurityComponent buf
    let buf := wccpAddServiceComponent group buf
    let buf := wccpAddWebcacheIdComponent localIp buf
    let buf ← wccpAddWebcacheViewComponent heap group buf
    let buf := wccpAddCapabilityInfo buf
    return some (buf.read 0 (buf.be16 6 + 8))
  | .redirectAssign => do
    let buf := wccpAddRedirectAssignHeader buf
    let buf := wccpAddSecurityComponent buf
    let buf := wccpAddServiceComponent group buf
    let buf ← wccpAddAssignmentInfoComponent heap localIp group buf
    return some (buf.read 0 (buf.be16 6 + 8))
  | .iSeeYou | .removalQuery => .ok none

end Build

end Opennop
