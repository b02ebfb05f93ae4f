import Opennop.Ipc.Neighbor

/-!
# IPC messages (`opennopd/subsystems/ipc.c`)

How a node builds a message for a neighbor and what it does with a buffer it has received. A message
is a header of eight bytes (`type`, `header_length`, `version`, `length`, `security`, `antireplay`),
32 bytes of HMAC if `security` is one, and the message proper (`type`, `length`, the sender's ID).
The 16-bit fields are those of a little-endian host. `find_neighbor_by_socket` maps the descriptor
to the address of its peer, which is the argument `peer` here, and that to the first entry with the
address.
-/

namespace Opennop

open Mem

/-- HMAC-SHA256 as a function of the key and the bytes. -/
structure Hmac where
  digest : List UInt8 → List UInt8 → List UInt8
  length_digest : ∀ key data, (digest key data).length = 32

/-- `OPENNOP_IPC_MSG_TYPE` -/
inductive IpcMsgType where
  | hereIAm
  | iSeeYou
  | authErr
  | badId
  | dedupMap
  deriving DecidableEq, Repr

def IpcMsgType.toNat : IpcMsgType → Nat
  | hereIAm => 1
  | iSeeYou => 2
  | authErr => 3
  | badId => 4
  | dedupMap => 5

/-! ## The header -/

/-- `OPENNOP_MSG_TYPE_IPC` -/
def msgTypeIpc : UInt8 := 1

/-- `OPENNOP_MSG_SECURITY_NO` for an empty key, else `OPENNOP_MSG_SECURITY_SHA` -/
def IpcKey.security (k : IpcKey) : UInt8 := if k.isEmpty then 0 else 1

/-- `opennop_msg_header->length` -/
def msgLength (m : Mem) : Nat := m.le16 4

def setMsgLength (m : Mem) (v : Nat) : Mem := m.setLe16 4 v

/-- `opennop_msg_header->security` -/
def msgSecurity (m : Mem) : UInt8 := m 6

/-- `initialize_opennop_ipc_header` -/
def initializeOpennopIpcHeader (key : IpcKey) (m : Mem) : Mem :=
  (((setMsgLength ((m.set 0 msgTypeIpc).setLe16 2 1) 8).set 6 key.security).set 7 0)

/-- Where `securitydata` points. -/
def securityData : Nat := 8

/-- `get_header_data`: room for the HMAC, and where the messages start -/
def getHeaderData (m : Mem) : Mem × Nat :=
  if msgSecurity m = 1 then (setMsgLength m (msgLength m + 32), securityData + 32) else (m, 8)

/-- `calculate_hmac_sha256` into the buffer itself -/
def calculateHmacSha256 (H : Hmac) (key : IpcKey) (m : Mem) : Mem :=
  m.write securityData (H.digest key.block (m.read 0 (msgLength m)))

/-! ## Sending -/

/-- A message of eight bytes behind what the buffer holds. -/
def addMessage (type : IpcMsgType) (localid : OpennopId) (m : Mem) : Mem :=
  let message := msgLength m
  let m := (m.setLe16 message type.toNat).setLe16 (message + 2) 8
  let m := m.write (message + 4) localid.bytes
  setMsgLength m (msgLength m + m.le16 (message + 2))

/-- `add_hello_message` -/
def addHelloMessage : OpennopId → Mem → Mem := addMessage .hereIAm

/-- `ipc_add_i_see_you_message` -/
def ipcAddISeeYouMessage : OpennopId → Mem → Mem := addMessage .iSeeYou

/-- The buffer that `ipc_send_message` builds. -/
def buildMessage (H : Hmac) (key : IpcKey) (localid : OpennopId) (type : IpcMsgType) : Mem :=
  let (m, _) := getHeaderData (initializeOpennopIpcHeader key fun _ => 0)
  let m := match type with
    | .hereIAm => addHelloMessage localid m
    | .iSeeYou => ipcAddISeeYouMessage localid m
    | _ => m
  if msgSecurity m = 1 then calculateHmacSha256 H key m else m

/-- `ipc_send_message`: the bytes that go out -/
def ipcSendMessage (H : Hmac) (key : IpcKey) (localid : OpennopId) (type : IpcMsgType) :
    List UInt8 :=
  let m := buildMessage H key localid type
  m.read 0 (msgLength m)

/-! ## Receiving -/

/-- What a node is while it handles messages: its key, its ID and its neighbors. -/
structure IpcNode where
  key : IpcKey
  id : OpennopId
  neighbors : List Neighbor

/-- What became of a buffer: the buffer, which is changed in place, the neighbors, and the messages
that were sent in reply. -/
structure Handled where
  result : Int
  buf : Mem
  neighbors : List Neighbor
  replies : List (List UInt8)

section Handler

variable (H : Hmac) (now : Int) (node : IpcNode) (peer : Option Nat)

/-- `find_neighbor_by_socket`, as the position in the list -/
def findNeighborBySocket (neighbors : List Neighbor) : Option Nat :=
  peer.bind (findNeighborByAddr neighbors)

/-- A change of the entry that `find_neighbor_by_socket` gives, if there is one. -/
def updateNeighbor (f : Neighbor → Neighbor) (neighbors : List Neighbor) : List Neighbor :=
  match findNeighborBySocket peer neighbors with
  | some i => neighbors.modify i f
  | none => neighbors

/-- `save_opennopid` into an entry -/
def saveId (id : OpennopId) (n : Neighbor) : Neighbor := { n with id }

/-- `ipc_set_neighbor_state` -/
def ipcSetNeighborState (state : NeighborState) (neighbors : List Neighbor) : List Neighbor :=
  updateNeighbor peer (fun n => { n with state, timer := now }) neighbors

/-- `process_message` -/
def processMessage (m : Mem) : Handled :=
  let (m, messages) := getHeaderData m
  let id := OpennopId.load m (messages + 4)
  if m.le16 messages = IpcMsgType.hereIAm.toNat then
    { result := 0, buf := m, neighbors := updateNeighbor peer (saveId id) node.neighbors,
      replies := [ipcSendMessage H node.key node.id .iSeeYou] }
  else if m.le16 messages = IpcMsgType.iSeeYou.toNat then
    { result := 0, buf := m, replies := [],
      neighbors :=
        ipcSetNeighborState now peer .up (updateNeighbor peer (saveId id) node.neighbors) }
  else { result := 0, buf := m, neighbors := node.neighbors, replies := [] }

def refuse (result : Int) (m : Mem) : Handled :=
  { result, buf := m, neighbors := node.neighbors, replies := [] }

/-- `check_hmac_sha256`, with the key of the entry -/
def checkHmacSha256 (key : IpcKey) (m : Mem) : Handled :=
  let saved := m.read securityData 32
  let m := calculateHmacSha256 H key (m.fill securityData 32 0)
  if saved = m.read securityData 32 then processMessage H now node peer m else refuse node (-1) m

/-- `validate_security` for the mode `security` of the entry -/
def validateSecurity (key : IpcKey) (m : Mem) (security : UInt8) : Handled :=
  if msgSecurity m = security then
    if msgSecurity m = 0 then processMessage H now node peer m
    else checkHmacSha256 H now node peer key m
  else refuse node (-1) m

/-- `check_security` -/
def checkSecurity (m : Mem) : Handled :=
  match (findNeighborBySocket peer node.neighbors).bind (node.neighbors[·]?) with
  | some n => validateSecurity H now node peer n.key m n.key.security
  | none => refuse node (-1) m

/-- `ipc_handler` -/
def ipcHandler (m : Mem) : Handled :=
  if m 0 = msgTypeIpc then checkSecurity H now node peer m else refuse node 0 m

end Handler

/-! ## The bytes of a message -/

/-- The header of a message of `length` bytes. -/
def headerBytes (length : Nat) (security : UInt8) : List UInt8 :=
  [msgTypeIpc, 0, 1, 0, UInt8.ofNat length, UInt8.ofNat (length / 256), security, 0]

def bodyBytes (type : IpcMsgType) (id : OpennopId) : List UInt8 :=
  [UInt8.ofNat type.toNat, 0, 8, 0] ++ id.bytes

section Bytes

variable {m : Mem} {l : Nat} {security : UInt8}

theorem holds_header : m.Holds 0 (headerBytes l security) ↔ m 0 = msgTypeIpc ∧ m 1 = 0 ∧ m 2 = 1 ∧
    m 3 = 0 ∧ m 4 = UInt8.ofNat l ∧ m 5 = UInt8.ofNat (l / 256) ∧ m 6 = security ∧ m 7 = 0 := by
  simp [headerBytes, holds_cons]

theorem holds_body {o : Nat} {type : IpcMsgType} {id : OpennopId} : m.Holds o (bodyBytes type id) ↔
    (m o = UInt8.ofNat type.toNat ∧ m (o + 1) = 0 ∧ m (o + 2) = 8 ∧ m (o + 3) = 0) ∧
      m.Holds (o + 4) id.bytes := by
  simp [bodyBytes, holds_cons, Nat.add_assoc, and_assoc]

theorem msgLength_of_holds (h : m.Holds 0 (headerBytes l security)) (hl : l < 65536) :
    msgLength m = l := by
  obtain ⟨-, -, -, -, h4, h5, -, -⟩ := holds_header.1 h
  unfold msgLength le16
  rw [h4, h5, UInt8.toNat_ofNat', UInt8.toNat_ofNat']
  omega

theorem msgSecurity_of_holds (h : m.Holds 0 (headerBytes l security)) : msgSecurity m = security :=
  (holds_header.1 h).2.2.2.2.2.2.1

theorem setMsgLength_holds (h : m.Holds 0 (headerBytes l security)) (v : Nat) :
    (setMsgLength m v).Holds 0 (headerBytes v security) := by
  obtain ⟨h0, h1, h2, h3, -, -, h6, h7⟩ := holds_header.1 h
  have hout : ∀ i, i < 4 ∨ 6 ≤ i → setMsgLength m v i = m i := fun i hi => setLe16_out m v hi
  refine holds_header.2 ⟨?_, ?_, ?_, ?_, ?_, ?_, ?_, ?_⟩
  · rw [hout 0 (by omega), h0]
  · rw [hout 1 (by omega), h1]
  · rw [hout 2 (by omega), h2]
  · rw [hout 3 (by omega), h3]
  · rfl
  · rfl
  · rw [hout 6 (by omega), h6]
  · rw [hout 7 (by omega), h7]

theorem initializeOpennopIpcHeader_holds (key : IpcKey) :
    (initializeOpennopIpcHeader key fun _ => 0).Holds 0 (headerBytes 8 key.security) :=
  holds_header.2 ⟨rfl, rfl, rfl, rfl, rfl, rfl, rfl, rfl⟩

theorem addMessage_holds (h : m.Holds 0 (headerBytes l security)) (h8 : 8 ≤ l) (hl : l + 8 < 65536)
    (type : IpcMsgType) (id : OpennopId) :
    (addMessage type id m).Holds 0 (headerBytes (l + 8) security) ∧
      (addMessage type id m).Holds l (bodyBytes type id) ∧
      ∀ i, 8 ≤ i → i < l → addMessage type id m i = m i := by
  have hlen := msgLength_of_holds h (by omega)
  unfold addMessage
  rw [hlen]
  dsimp only
  -- the buffer with the message, before its length is added to that of the header
  generalize hm' : ((m.setLe16 l type.toNat).setLe16 (l + 2) 8).write (l + 4) id.bytes = m'
  have hbelow : ∀ i < l, m' i = m i := by
    intro i hi
    rw [← hm', write_out _ (by omega), setLe16_out _ _ (by omega), setLe16_out _ _ (by omega)]
  have hbody : m'.Holds l (bodyBytes type id) := by
    rw [holds_body, ← hm']
    refine ⟨⟨?_, ?_, ?_, ?_⟩, holds_write _ _ _⟩
    all_goals rw [write_out _ (by omega)]
    · rw [setLe16_out _ _ (by omega), setLe16, set_ne _ _ (by omega), set_self]
    · rw [setLe16_out _ _ (by omega), setLe16, set_self]
      cases type <;> rfl
    · rw [setLe16, set_ne _ _ (by omega), set_self]
      rfl
    · rw [setLe16, set_self]
      rfl
  have hheader : m'.Holds 0 (headerBytes l security) :=
    h.congr fun i _ hi => hbelow i (by simp [headerBytes] at hi; omega)
  have h8' : m'.le16 (l + 2) = 8 := by
    obtain ⟨⟨-, -, h2, h3⟩, -⟩ := holds_body.1 hbody
    unfold le16
    rw [h2, h3]
    rfl
  rw [msgLength_of_holds hheader (by omega), h8']
  refine ⟨setMsgLength_holds hheader _, hbody.congr fun i hi _ => ?_, fun i hi hi' => ?_⟩
  · exact setLe16_out _ _ (by omega)
  · rw [setMsgLength, setLe16_out _ _ (by omega), hbelow i hi']

end Bytes

/-- The message that is authenticated: with zeros where the HMAC will be. -/
def unsignedBytes (type : IpcMsgType) (id : OpennopId) : List UInt8 :=
  headerBytes 48 1 ++ List.replicate 32 0 ++ bodyBytes type id

section Send

variable (H : Hmac) {key : IpcKey} (id : OpennopId) {type : IpcMsgType}
  (htype : type = .hereIAm ∨ type = .iSeeYou)
include htype

theorem buildMessage_eq : buildMessage H key id type =
    (let m := addMessage type id (getHeaderData (initializeOpennopIpcHeader key fun _ => 0)).1
    if msgSecurity m = 1 then calculateHmacSha256 H key m else m) := by
  rcases htype with rfl | rfl <;> rfl

/-- Without a key the message is sent as it is. -/
theorem ipcSendMessage_plain (hkey : key.isEmpty) :
    ipcSendMessage H key id type = headerBytes 16 0 ++ bodyBytes type id := by
  have hsec : key.security = 0 := if_pos hkey
  have hinit := initializeOpennopIpcHeader_holds key
  rw [hsec] at hinit
  have hdata : getHeaderData (initializeOpennopIpcHeader key fun _ => 0) =
      (initializeOpennopIpcHeader key fun _ => 0, 8) := by
    rw [getHeaderData, msgSecurity_of_holds hinit, if_neg (by decide)]
  obtain ⟨hheader, hbody, -⟩ := addMessage_holds hinit (by omega) (by omega) type id
  unfold ipcSendMessage
  rw [buildMessage_eq H id htype, hdata]
  dsimp only
  rw [msgSecurity_of_holds hheader, if_neg (by decide), msgLength_of_holds hheader (by omega)]
  exact Holds.read (holds_append.2 ⟨hheader, hbody⟩) rfl

/-- With a key the HMAC of the unsigned message stands between header and message. -/
theorem ipcSendMessage_sha (hkey : ¬ key.isEmpty) : ipcSendMessage H key id type =
    headerBytes 48 1 ++ H.digest key.block (unsignedBytes type id) ++ bodyBytes type id := by
  have hsec : key.security = 1 := if_neg hkey
  have hinit := initializeOpennopIpcHeader_holds key
  rw [hsec] at hinit
  have hdata : (getHeaderData (initializeOpennopIpcHeader key fun _ => 0)).1 =
      setMsgLength (initializeOpennopIpcHeader key fun _ => 0) 40 := by
    rw [getHeaderData, msgSecurity_of_holds hinit, if_pos rfl, msgLength_of_holds hinit (by omega)]
  have h40 := setMsgLength_holds hinit 40
  obtain ⟨hheader, hbody, hmid⟩ := addMessage_holds h40 (by omega) (by omega) type id
  have hzero :
    (addMessage type id (setMsgLength (initializeOpennopIpcHeader key fun _ => 0) 40)).Holds 8
      (List.replicate 32 0) := by
    refine holds_replicate.2 fun j hj => ?_
    rw [hmid _ (by omega) (by omega), setMsgLength, setLe16_out _ _ (by omega)]
    unfold initializeOpennopIpcHeader
    rw [set_ne _ _ (by omega), set_ne _ _ (by omega), setMsgLength, setLe16_out _ _ (by omega),
      setLe16_out _ _ (by omega), set_ne _ _ (by omega)]
  unfold ipcSendMessage
  rw [buildMessage_eq H id htype, hdata]
  dsimp only
  generalize addMessage type id _ = m at hheader hbody hzero ⊢
  have hdigest : m.read 0 48 = unsignedBytes type id :=
    Holds.read (holds_append.2 ⟨holds_append.2 ⟨hheader, hzero⟩, hbody⟩) rfl
  rw [msgSecurity_of_holds hheader, if_pos rfl, calculateHmacSha256,
    msgLength_of_holds hheader (by omega), hdigest]
  generalize hmac : H.digest key.block (unsignedBytes type id) = mac
  have hlen : mac.length = 32 := by rw [← hmac, H.length_digest]
  have hheader' : (m.write securityData mac).Holds 0 (headerBytes 48 1) :=
    hheader.congr fun i _ hi => write_out m (.inl hi)
  have hbody' : (m.write securityData mac).Holds 40 (bodyBytes type id) :=
    hbody.congr fun i hi _ => write_out m (by unfold securityData; omega)
  rw [msgLength_of_holds hheader' (by omega)]
  refine Holds.read (holds_append.2 ⟨holds_append.2 ⟨hheader', holds_write m 8 mac⟩, ?_⟩) ?_
  · rw [List.length_append, hlen]
    exact hbody'
  · rw [List.length_append, List.length_append, hlen]
    rfl

end Send

/-! ## Entries -/

section Entries

variable {peer : Option Nat} {neighbors : List Neighbor} {f : Neighbor → Neighbor}

theorem map_modify_eq {β : Type} {g : Neighbor → β} (hf : ∀ n, g (f n) = g n) (i : Nat) :
    (neighbors.modify i f).map g = neighbors.map g := by
  refine List.ext_getElem? fun j => ?_
  rw [List.getElem?_map, List.getElem?_map, List.getElem?_modify, Option.map_eq_map, Option.map_map]
  congr 1
  funext n
  by_cases hij : i = j
  · simp [hij, hf]
  · simp [hij]

theorem findNeighborByAddr_congr {neighbors' : List Neighbor}
    (h : neighbors'.map Neighbor.neighborIP = neighbors.map Neighbor.neighborIP) (addr : Nat) :
    findNeighborByAddr neighbors' addr = findNeighborByAddr neighbors addr := by
  have hmap : ∀ l : List Neighbor, findNeighborByAddr l addr =
      (l.map Neighbor.neighborIP).findIdx? (· == addr) := by
    intro l
    rw [List.findIdx?_map]
    rfl
  rw [hmap, hmap, h]

theorem findNeighborBySocket_modify (hf : ∀ n, (f n).neighborIP = n.neighborIP) (i : Nat) :
    findNeighborBySocket peer (neighbors.modify i f) = findNeighborBySocket peer neighbors := by
  unfold findNeighborBySocket
  exact congrArg _ (funext fun addr => findNeighborByAddr_congr (map_modify_eq hf i) addr)

theorem map_updateNeighbor {β : Type} {g : Neighbor → β} (hf : ∀ n, g (f n) = g n) :
    (updateNeighbor peer f neighbors).map g = neighbors.map g := by
  unfold updateNeighbor
  split
  · exact map_modify_eq hf _
  · rfl

theorem updateNeighbor_eq {i : Nat} (h : findNeighborBySocket peer neighbors = some i) :
    updateNeighbor peer f neighbors = neighbors.modify i f := by
  rw [updateNeighbor, h]

end Entries

/-- What a message of a neighbor does to its entry. -/
def deliver (now : Int) (id : OpennopId) : IpcMsgType → Neighbor → Neighbor
  | .hereIAm, n => saveId id n
  | .iSeeYou, n => { saveId id n with state := .up, timer := now }
  | _, n => n

/-! ## Receiving what was sent -/

section Receive

variable {H : Hmac} {now : Int} {node : IpcNode} {peer : Option Nat} {m : Mem}

theorem getHeaderData_body {o : Nat} {type : IpcMsgType} {id : OpennopId}
    (ho : o = (getHeaderData m).2) (hbody : m.Holds o (bodyBytes type id)) :
    (getHeaderData m).1.Holds o (bodyBytes type id) := by
  unfold getHeaderData at ho ⊢
  split
  · rw [if_pos ‹_›] at ho
    refine hbody.congr fun i hi _ => setLe16_out m _ (.inr ?_)
    unfold securityData at ho
    omega
  · exact hbody

theorem processMessage_body {i : Nat} (hi : findNeighborBySocket peer node.neighbors = some i)
    {type : IpcMsgType} (htype : type = .hereIAm ∨ type = .iSeeYou) {id : OpennopId}
    (hbody : m.Holds (getHeaderData m).2 (bodyBytes type id)) :
    (processMessage H now node peer m).neighbors = node.neighbors.modify i
    (deliver now id type) := by
  obtain ⟨⟨h0, h1, -, -⟩, hid⟩ := holds_body.1 (getHeaderData_body rfl hbody)
  have hload : OpennopId.load (getHeaderData m).1 ((getHeaderData m).2 + 4) = id :=
    OpennopId.bytes_inj (by rw [OpennopId.load_bytes]; exact hid.read rfl)
  have htype' : (getHeaderData m).1.le16 (getHeaderData m).2 = type.toNat := by
    unfold le16
    rw [h0, h1]
    cases type <;> rfl
  unfold processMessage
  dsimp only
  rw [htype', hload]
  rcases htype with rfl | rfl
  · rw [if_pos rfl]
    exact updateNeighbor_eq hi
  · rw [if_neg (by decide), if_pos rfl]
    dsimp only
    rw [updateNeighbor_eq hi, ipcSetNeighborState, updateNeighbor_eq, List.modify_modify_eq]
    · rfl
    · rw [findNeighborBySocket_modify (f := saveId id) (fun _ => rfl), hi]

/-- Where the messages of a node with this key start. -/
def IpcKey.messages (k : IpcKey) : Nat := if k.isEmpty then 8 else 40

/-- What is checked of a buffer, for the entry of its sender. -/
def Authentic (H : Hmac) (n : Neighbor) (m : Mem) : Prop :=
  msgSecurity m = n.key.security ∧ (¬ n.key.isEmpty →
    m.read securityData 32 =
      H.digest n.key.block ((m.fill securityData 32 0).read 0 (msgLength m)))

/-- The buffer as `check_hmac_sha256` leaves it when the HMAC is right. -/
theorem calculateHmac_fill (key : IpcKey) :
    (calculateHmacSha256 H key (m.fill securityData 32 0)).read securityData 32 =
      H.digest key.block ((m.fill securityData 32 0).read 0 (msgLength m)) := by
  have hlen : msgLength (m.fill securityData 32 0) = msgLength m :=
    le16_congr fun i h₁ h₂ => fill_out m 0 (by unfold securityData; omega)
  unfold calculateHmacSha256
  rw [hlen]
  exact (holds_write _ _ _).read (H.length_digest _ _)

theorem validateSecurity_eq (n : Neighbor) :
    validateSecurity H now node peer n.key m n.key.security =
    if n.key.isEmpty then
      if msgSecurity m = 0 then processMessage H now node peer m else refuse node (-1) m
    else if msgSecurity m = 1 then checkHmacSha256 H now node peer n.key m
    else refuse node (-1) m := by
  unfold validateSecurity IpcKey.security
  by_cases hkey : n.key.isEmpty
  · rw [if_pos hkey, if_pos hkey]
    split
    · rfl
    · rfl
  · rw [if_neg hkey, if_neg hkey]
    split
    · rename_i h1
      rw [h1, if_neg (by decide)]
    · rfl

/-- What a neighbor with the same key has sent is authentic. -/
theorem authentic_sent {n : Neighbor} {type : IpcMsgType}
    (htype : type = .hereIAm ∨ type = .iSeeYou) {id : OpennopId}
    (hm : m.Holds 0 (ipcSendMessage H n.key id type)) :
    m 0 = msgTypeIpc ∧ Authentic H n m ∧ m.Holds n.key.messages (bodyBytes type id) ∧
      msgSecurity m = n.key.security := by
  by_cases hkey : n.key.isEmpty
  · have hsec : n.key.security = 0 := if_pos hkey
    rw [ipcSendMessage_plain H id htype hkey, holds_append] at hm
    obtain ⟨hheader, hbody⟩ := hm
    have hsec' := msgSecurity_of_holds hheader
    rw [IpcKey.messages, if_pos hkey, hsec]
    exact ⟨(holds_header.1 hheader).1,
      ⟨hsec'.trans hsec.symm, fun h => absurd hkey h⟩, hbody, hsec'⟩
  · have hsec : n.key.security = 1 := if_neg hkey
    rw [ipcSendMessage_sha H id htype hkey, holds_append, holds_append, List.length_append,
      H.length_digest] at hm
    obtain ⟨⟨hheader, hmac⟩, hbody⟩ := hm
    have hsec' := msgSecurity_of_holds hheader
    rw [IpcKey.messages, if_neg hkey, hsec]
    refine ⟨(holds_header.1 hheader).1, ⟨hsec'.trans hsec.symm, fun _ => ?_⟩, hbody, hsec'⟩
    have hmac' : m.read securityData 32 = H.digest n.key.block (unsignedBytes type id) :=
      hmac.read (H.length_digest _ _)
    rw [msgLength_of_holds hheader (by omega), hmac']
    -- with zeros for the HMAC the first 48 bytes are the unsigned message again
    have hheader' : (m.fill securityData 32 0).Holds 0 (headerBytes 48 1) :=
      hheader.congr fun j _ hj => fill_out m 0 (.inl hj)
    have hbody' : (m.fill securityData 32 0).Holds 40 (bodyBytes type id) :=
      hbody.congr fun j hj _ => fill_out m 0 (.inr hj)
    have hunsigned : (m.fill securityData 32 0).Holds 0 (unsignedBytes type id) :=
      holds_append.2 ⟨holds_append.2 ⟨hheader', holds_fill m securityData 32 0⟩, hbody'⟩
    have hread : (m.fill securityData 32 0).read 0 48 = unsignedBytes type id := hunsigned
    rw [hread]

variable {i : Nat} {n : Neighbor} (hi : findNeighborBySocket peer node.neighbors = some i)
  (hn : node.neighbors[i]? = some n)
include hi hn

theorem checkSecurity_eq : checkSecurity H now node peer m =
    validateSecurity H now node peer n.key m n.key.security := by
  unfold checkSecurity
  rw [hi, Option.bind_some, hn]

/-- An authentic buffer is processed; only the bytes of the HMAC can have changed. -/
theorem ipcHandler_authentic (now : Int) (hm : m 0 = msgTypeIpc) (ha : Authentic H n m) :
    ∃ m', ipcHandler H now node peer m = processMessage H now node peer m' ∧
      ∀ j, j < 8 ∨ n.key.messages ≤ j → m' j = m j := by
  obtain ⟨hsec, hmac⟩ := ha
  unfold ipcHandler IpcKey.messages
  rw [if_pos hm, checkSecurity_eq hi hn, validateSecurity_eq, hsec]
  unfold IpcKey.security
  by_cases hkey : n.key.isEmpty
  · rw [if_pos hkey, if_pos hkey, if_pos hkey, if_pos rfl]
    exact ⟨m, rfl, fun _ _ => rfl⟩
  · rw [if_neg hkey, if_neg hkey, if_neg hkey, if_pos rfl, checkHmacSha256, calculateHmac_fill,
      if_pos (hmac hkey)]
    refine ⟨_, rfl, fun j hj => ?_⟩
    have hlen := H.length_digest n.key.block
      ((m.fill securityData 32 0).read 0 (msgLength (m.fill securityData 32 0)))
    unfold calculateHmacSha256
    unfold securityData at hlen ⊢
    rw [write_out _ (by omega), fill_out _ _ (by omega)]

omit hi hn in
/-- The handler keeps the address, the socket and the key of every entry. -/
theorem ipcHandler_map {β : Type} {g : Neighbor → β} (hid : ∀ n id, g { n with id } = g n)
    (hstate : ∀ n state timer, g { n with state, timer } = g n) :
    (ipcHandler H now node peer m).neighbors.map g = node.neighbors.map g := by
  have hprocess : ∀ m, (processMessage H now node peer m).neighbors.map g =
      node.neighbors.map g := by
    intro m
    unfold processMessage
    dsimp only
    split
    · exact map_updateNeighbor fun n => hid n _
    · split
      · exact (map_updateNeighbor fun n => hstate n _ _).trans (map_updateNeighbor fun n => hid n _)
      · rfl
  unfold ipcHandler checkSecurity
  split
  · split
    · rw [validateSecurity_eq]
      split
      · split
        · exact hprocess _
        · rfl
      · split
        · unfold checkHmacSha256
          dsimp only
          split
          · exact hprocess _
          · rfl
        · rfl
    · rfl
  · rfl

/-- A buffer that is not authentic changes nothing. -/
theorem ipcHandler_refuses (ha : ¬ Authentic H n m) :
    (ipcHandler H now node peer m).neighbors = node.neighbors ∧
      (ipcHandler H now node peer m).replies = [] := by
  unfold ipcHandler
  split
  · rw [checkSecurity_eq hi hn, validateSecurity_eq]
    unfold Authentic IpcKey.security at ha
    by_cases hkey : n.key.isEmpty
    · rw [if_pos hkey] at ha ⊢
      rw [if_neg fun hsec => ha ⟨hsec, fun h => absurd hkey h⟩]
      exact ⟨rfl, rfl⟩
    · rw [if_neg hkey] at ha ⊢
      split
      · rename_i hsec
        rw [checkHmacSha256, calculateHmac_fill, if_neg fun hmac => ha ⟨hsec, fun _ => hmac⟩]
        exact ⟨rfl, rfl⟩
      · exact ⟨rfl, rfl⟩
  · exact ⟨rfl, rfl⟩

/-- What a neighbor with the same key has sent is delivered to its entry. -/
theorem ipcHandler_sent {type : IpcMsgType} (htype : type = .hereIAm ∨ type = .iSeeYou)
    {id : OpennopId} (hm : m.Holds 0 (ipcSendMessage H n.key id type)) :
    (ipcHandler H now node peer m).neighbors = node.neighbors.modify i (deliver now id type) := by
  obtain ⟨h0, ha, hbody, hsec⟩ := authentic_sent htype hm
  obtain ⟨m', heq, hsame⟩ := ipcHandler_authentic hi hn now h0 ha
  have hsec' : msgSecurity m' = n.key.security := by
    rw [← hsec]
    exact hsame 6 (by omega)
  have hoff : (getHeaderData m').2 = n.key.messages := by
    unfold getHeaderData
    rw [hsec', IpcKey.security, IpcKey.messages]
    by_cases hkey : n.key.isEmpty
    · rw [if_pos hkey, if_pos hkey]
      rfl
    · rw [if_neg hkey, if_neg hkey]
      rfl
  rw [heq]
  refine processMessage_body hi htype ?_
  rw [hoff]
  exact hbody.congr fun j hj _ => hsame j (.inr hj)

end Receive

/-- **Messages authenticate and round-trip.** A buffer that starts with what a node with the key and
the ID has sent is delivered to the entry of that node, if it has the same key; whatever the buffer
holds, it changes the table or is answered only if it is authentic for the entry of its sender. -/
theorem ipcHandler_spec (H : Hmac) (now : Int) (node : IpcNode) (peer : Option Nat) :
    (∀ (key : IpcKey) (id : OpennopId) (type : IpcMsgType) (m : Mem) (i : Nat) (n : Neighbor),
      (type = .hereIAm ∨ type = .iSeeYou) → m.Holds 0 (ipcSendMessage H key id type) →
      findNeighborBySocket peer node.neighbors = some i →
        node.neighbors[i]? = some n → n.key = key →
      ∃ n', (ipcHandler H now node peer m).neighbors[i]? = some n' ∧ n'.id = id ∧
        (type = .iSeeYou → n'.state = .up)) ∧
    (∀ m : Mem, (ipcHandler H now node peer m).neighbors ≠ node.neighbors ∨
        (ipcHandler H now node peer m).replies ≠ [] →
      ∃ i n, findNeighborBySocket peer node.neighbors = some i ∧ node.neighbors[i]? = some n ∧
        Authentic H n m) ∧
    ∀ m : Mem, (¬ ∃ i n, findNeighborBySocket peer node.neighbors = some i ∧
        node.neighbors[i]? = some n ∧ Authentic H n m) →
      (ipcHandler H now node peer m).neighbors = node.neighbors ∧
        (ipcHandler H now node peer m).replies = [] := by
  have hrefuse : ∀ m : Mem, (¬ ∃ i n, findNeighborBySocket peer node.neighbors = some i ∧
      node.neighbors[i]? = some n ∧ Authentic H n m) →
      (ipcHandler H now node peer m).neighbors = node.neighbors ∧
        (ipcHandler H now node peer m).replies = [] := by
    intro m hno
    cases hentry : (findNeighborBySocket peer node.neighbors).bind (node.neighbors[·]?) with
    | none =>
      unfold ipcHandler
      split
      · rw [checkSecurity, hentry]
        exact ⟨rfl, rfl⟩
      · exact ⟨rfl, rfl⟩
    | some n =>
      obtain ⟨i, hi, hn⟩ := Option.bind_eq_some_iff.1 hentry
      exact ipcHandler_refuses hi hn fun ha => hno ⟨i, n, hi, hn, ha⟩
  refine ⟨?_, ?_, hrefuse⟩
  · rintro key id type m i n htype hm hi hn rfl
    refine ⟨deliver now id type n, ?_, ?_, ?_⟩
    · rw [ipcHandler_sent hi hn htype hm, List.getElem?_modify, hn]
      simp
    · rcases htype with rfl | rfl <;> rfl
    · rintro rfl
      rfl
  · intro m hchange
    by_contra hno
    obtain ⟨hneighbors, hreplies⟩ := hrefuse m hno
    rcases hchange with h | h
    · exact h hneighbors
    · exact h hreplies

/-- An HMAC that adds up the key and the bytes. -/
def sumHmac : Hmac where
  digest key data := List.replicate 32 ((key ++ data).foldl (· + ·) 0)
  length_digest _ _ := List.length_replicate

/-- The key `k`. -/
def oneKey : IpcKey := ⟨[107], by decide, by simp⟩

/-- A node whose neighbor `10.0.0.2` has the key `k`. -/
def keyedNode : IpcNode := ⟨oneKey, ⟨1, 1, 1, 1⟩, [{ neighborIP := 33554442, key := oneKey }]⟩

theorem ipcHandler_spec_keyedNode :
    ∃ n', (ipcHandler sumHmac 7 keyedNode (some 33554442)
        (Mem.ofList (ipcSendMessage sumHmac oneKey ⟨9, 8, 7, 6⟩ .iSeeYou))).neighbors[0]? =
          some n' ∧
      n'.id = ⟨9, 8, 7, 6⟩ ∧ n'.state = .up := by
  obtain ⟨n', hn', hid, hstate⟩ := (ipcHandler_spec sumHmac 7 keyedNode (some 33554442)).1 oneKey
    ⟨9, 8, 7, 6⟩ .iSeeYou (Mem.ofList (ipcSendMessage sumHmac oneKey ⟨9, 8, 7, 6⟩ .iSeeYou)) 0
    { neighborIP := 33554442, key := oneKey } (.inr rfl) (by decide +kernel) rfl rfl rfl
  exact ⟨n', hn', hid, hstate rfl⟩

end Opennop
