import Opennop.Wccp.Layout

/-!
# What a router reads

A receiver finds the components of a message by their length fields and decodes the two lists of a
view or an assignment from their counts. For the messages that `wccp_send_message` builds from a
service group it finds every component, and in the lists the servers and web-caches of the group.
-/

namespace Opennop

open Mem

/-! ## Reading a message -/

/-- Types and offsets of the components from `k` on, if they end at `stop`. -/
def components (m : Mem) (stop : Nat) : Nat → Nat → Option (List (Nat × Nat))
  | 0, _ => none
  | fuel + 1, k =>
    if k = stop then some []
    else if stop < k then none
    else (components m stop fuel (k + (m.be16 (k + 2) + 4))).map ((m.be16 k, k) :: ·)

/-- Every `stride`-th address from `k` on. -/
def decodeAddresses (m : Mem) (stride n k : Nat) : List UInt32 :=
  (List.range n).map fun i => UInt32.ofNat (m.le32 (k + stride * i))

/-- The two lists of a view or an assignment, and the position behind them. -/
structure GroupLists where
  numRouters : Nat
  routers : List UInt32
  numWebcaches : Nat
  webcaches : List UInt32
  stop : Nat
  deriving DecidableEq

/-- Decode a list of routers with elements of `stride` bytes, and the list of web-caches behind
it. -/
def decodeLists (m : Mem) (stride k : Nat) : GroupLists :=
  let numRouters := m.be32 k
  let behind := k + 4 + stride * numRouters
  let numWebcaches := m.be32 behind
  { numRouters
    routers := decodeAddresses m stride numRouters (k + 4)
    numWebcaches
    webcaches := decodeAddresses m 4 numWebcaches (behind + 4)
    stop := behind + 4 + 4 * numWebcaches }

/-- Fields with the offsets at which they stand when they are laid end to end. -/
def placed : Nat → List (List UInt8) → List (Nat × List UInt8)
  | _, [] => []
  | k, field :: fields => (k, field) :: placed (k + field.length) fields

/-! ### Components -/

section Components

/-- The types and offsets of components that follow one another. -/
def offsets : Nat → List (Nat × List UInt8) → List (Nat × Nat)
  | _, [] => []
  | k, c :: cs => (c.1, k) :: offsets (k + (componentBytes c.1 c.2).length) cs

theorem map_fst_offsets (k : Nat) (cs : List (Nat × List UInt8)) :
    (offsets k cs).map Prod.fst = cs.map Prod.fst := by
  induction cs generalizing k with
  | nil => rfl
  | cons c cs ih => simp [offsets, ih]

/-- **A receiver visits exactly the components of a message.** -/
theorem components_eq {m : Mem} {cs : List (Nat × List UInt8)} :
    ∀ {pre : List UInt8} {stop fuel : Nat},
      Filled m (pre ++ cs.flatMap fun c => componentBytes c.1 c.2) →
      stop = (pre ++ cs.flatMap fun c => componentBytes c.1 c.2).length →
      (∀ c ∈ cs, c.1 < 65536 ∧ c.2.length < 65536) → cs.length < fuel →
      components m stop fuel pre.length = some (offsets pre.length cs) := by
  induction cs with
  | nil =>
    intro pre stop fuel _ hstop _ hfuel
    obtain ⟨fuel, rfl⟩ : ∃ n, fuel = n + 1 := ⟨fuel - 1, by simp at hfuel; omega⟩
    simp only [components]
    rw [if_pos (by simp [hstop])]
    rfl
  | cons c cs ih =>
    intro pre stop fuel hm hstop hsmall hfuel
    obtain ⟨fuel, rfl⟩ : ∃ n, fuel = n + 1 := ⟨fuel - 1, by simp at hfuel; omega⟩
    obtain ⟨htype, hlength⟩ := hsmall c List.mem_cons_self
    rw [List.flatMap_cons] at hm hstop
    have hway :
        UnderWay pre c.1 c.2.length (c.2 ++ cs.flatMap fun c => componentBytes c.1 c.2) m := by
      simp only [componentBytes, List.append_assoc] at hm
      exact hm
    have hheld : m.Holds pre.length (bytesBe16 c.1) := Filled.holds hway rfl
    rw [List.length_append, List.length_append, length_componentBytes] at hstop
    have hrec : components m stop fuel (pre ++ componentBytes c.1 c.2).length =
        some (offsets (pre ++ componentBytes c.1 c.2).length cs) :=
      ih (by rwa [List.append_assoc]) (by simp [hstop])
        (fun d hd => hsmall d (List.mem_cons_of_mem _ hd)) (by simp at hfuel; omega)
    simp only [components]
    rw [if_neg (by omega), if_neg (by omega), be16_of_holds hheld htype, hway.be16_length hlength]
    rw [List.length_append, length_componentBytes, Nat.add_comm 4] at hrec
    rw [hrec, offsets, length_componentBytes, Nat.add_comm 4]
    rfl

end Components

/-! ### Lists -/

section Lists

variable {α : Type} {element : WccpElement α} {bytes : α → List UInt8} {m : Mem}

theorem decodeAddresses_eq (address : α → UInt32) (he : element.Writes bytes)
    (haddress : ∀ x, ∃ rest, bytes x = bytesLe32 (address x).toNat ++ rest) {l : List α} :
    ∀ {k : Nat}, m.Holds k (l.flatMap bytes) →
      decodeAddresses m element.size l.length k = l.map address := by
  induction l with
  | nil =>
    intro k _
    rfl
  | cons x l ih =>
    intro k hm
    rw [List.flatMap_cons, holds_append, he.length] at hm
    obtain ⟨rest, hrest⟩ := haddress x
    have hx : m.le32 k = (address x).toNat := by
      have hheld := hm.1
      rw [hrest, holds_append] at hheld
      exact le32_of_holds hheld.1 (UInt32.toNat_lt _)
    have hl := ih hm.2
    unfold decodeAddresses at hl ⊢
    rw [List.length_cons, List.range_succ_eq_map, List.map_cons, List.map_map, List.map_cons, ← hl,
      Nat.mul_zero, Nat.add_zero, hx, UInt32.ofNat_toNat]
    congr 1
    apply List.map_congr_left
    intro i _
    rw [Function.comp_apply, Nat.succ_eq_add_one, Nat.mul_add, Nat.mul_one, Nat.add_assoc,
      Nat.add_comm element.size]

theorem decode_listBytes (address : α → UInt32) (he : element.Writes bytes)
    (haddress : ∀ x, ∃ rest, bytes x = bytesLe32 (address x).toNat ++ rest) {l : List α} {k : Nat}
    (hl : l.length < 4294967296) (hm : m.Holds k (listBytes bytes l)) :
    m.be32 k = l.length ∧ decodeAddresses m element.size l.length (k + 4) = l.map address := by
  rw [listBytes, holds_append] at hm
  exact ⟨be32_of_holds hm.1 hl, decodeAddresses_eq address he haddress hm.2⟩

/-- **Decoding yields the servers and the web-caches, in their order and with their counts.** -/
theorem decodeLists_eq {servers : List WccpServer} {webcaches : List UInt32}
    {element : WccpElement WccpServer} {bytes : WccpServer → List UInt8} {k : Nat}
    (he : element.Writes bytes)
    (haddress : ∀ x, ∃ rest, bytes x = bytesLe32 x.ipaddress.toNat ++ rest)
    (hs : servers.length < 4294967296) (hw : webcaches.length < 4294967296)
    (hm : m.Holds k (listBytes bytes servers ++ listBytes webcacheBytes webcaches)) :
    decodeLists m element.size k =
      { numRouters := servers.length
        routers := servers.map WccpServer.ipaddress
        numWebcaches := webcaches.length
        webcaches := webcaches
        stop := k + (listBytes bytes servers ++ listBytes webcacheBytes webcaches).length } := by
  rw [holds_append, he.length_listBytes] at hm
  obtain ⟨hnum, hrouters⟩ := decode_listBytes _ he haddress hs hm.1
  obtain ⟨hnum', hwebcaches⟩ := decode_listBytes id webcacheElement_writes
    (fun x => ⟨[], (List.append_nil _).symm⟩) hw hm.2
  have hbehind : k + 4 + element.size * servers.length =
      k + (4 + servers.length * element.size) := by
    rw [Nat.mul_comm]
    omega
  have hlength := webcacheElement_writes.length_listBytes webcaches
  simp only [decodeLists, hnum, hrouters, hbehind, hnum']
  rw [List.length_append, he.length_listBytes, hlength]
  simp only [GroupLists.mk.injEq, true_and]
  constructor
  · rw [List.map_id] at hwebcaches
    exact hwebcaches
  · simp only [webcacheElement]
    omega

end Lists

/-! ### Fields -/

theorem placed_ge {k : Nat} {fields : List (List UInt8)} : ∀ f ∈ placed k fields, k ≤ f.1 := by
  induction fields generalizing k with
  | nil => simp [placed]
  | cons field fields ih =>
    intro f hf
    rcases List.mem_cons.1 hf with rfl | hf
    · exact Nat.le_refl _
    · have := ih f hf
      omega

theorem pairwise_placed (k : Nat) (fields : List (List UInt8)) :
    (placed k fields).Pairwise fun f g => f.1 + f.2.length ≤ g.1 := by
  induction fields generalizing k with
  | nil => exact List.Pairwise.nil
  | cons field fields ih => exact List.Pairwise.cons placed_ge (ih _)

theorem holds_placed {m : Mem} {k : Nat} {fields : List (List UInt8)}
    (h : m.Holds k fields.flatten) :
    ∀ f ∈ placed k fields, m.Holds f.1 f.2 := by
  induction fields generalizing k with
  | nil => simp [placed]
  | cons field fields ih =>
    intro f hf
    rw [List.flatten_cons, holds_append] at h
    rcases List.mem_cons.1 hf with rfl | hf
    · exact h.1
    · exact ih h.2 f hf

/-! ## The messages -/

/-- The components of each message. -/
def WccpMsgType.componentTypes : WccpMsgType → List Nat
  | hereIAm => [0, 1, 3, 5, 8]
  | redirectAssign => [0, 1, 6]
  | iSeeYou | removalQuery => []

/-- The bytes of a message for a group with `n` servers and `k` web-caches. -/
def WccpMsgType.size (n k : Nat) : WccpMsgType → Nat
  | hereIAm => 128 + 8 * n + 4 * k
  | redirectAssign => 320 + 12 * n + 4 * k
  | iSeeYou | removalQuery => 0

def messageComponents (localIp : UInt32) (groupId : UInt8) (changeNumber : UInt32)
    (servers : List WccpServer) (webcaches : List UInt32) : WccpMsgType → List (Nat × List UInt8)
  | .hereIAm =>
    [(0, securityContent), (1, serviceContent groupId), (3, webcacheIdContent localIp),
      (5, viewContent changeNumber servers webcaches), (8, capabilityContent)]
  | .redirectAssign =>
    [(0, securityContent), (1, serviceContent groupId),
      (6, assignmentContent localIp changeNumber servers webcaches)]
  | .iSeeYou | .removalQuery => []

/-- A component's type and length, and the fields behind them. -/
def componentFields (type : Nat) (fields : List (List UInt8)) : List (List UInt8) :=
  [bytesBe16 type, bytesBe16 fields.flatten.length] ++ fields

/-- The fields behind the header one by one. The bytes of the service and web-cache components that
the code leaves zero are a field each. -/
def bodyFields (localIp : UInt32) (groupId : UInt8) (changeNumber : UInt32)
    (servers : List WccpServer) (webcaches : List UInt32) : WccpMsgType → List (List UInt8)
  | .hereIAm =>
    componentFields 0 [bytesBe32 0] ++
    componentFields 1
      [[1], [UInt8.ofNat (htons groupId.toNat)], [200], [0], bytesBe32 15, List.replicate 16 0] ++
    componentFields 3
      [bytesLe32 localIp.toNat, bytesBe16 0, List.replicate 34 0, bytesBe16 0, bytesBe16 0] ++
    componentFields 5 ([bytesBe32 changeNumber.toNat, bytesBe32 servers.length] ++
      servers.flatMap (fun s => [bytesLe32 s.ipaddress.toNat, bytesBe32 s.routerId.toNat]) ++
      [bytesBe32 webcaches.length] ++ webcaches.map webcacheBytes) ++
    componentFields 8 [bytesBe16 1, bytesBe16 4, bytesBe32 2, bytesBe16 3, bytesBe16 4, bytesBe32 2]
  | .redirectAssign =>
    componentFields 0 [bytesBe32 0] ++
    componentFields 1
      [[1], [UInt8.ofNat (htons groupId.toNat)], [200], [0], bytesBe32 15, List.replicate 16 0] ++
    componentFields 6
      ([bytesLe32 localIp.toNat, bytesBe32 changeNumber.toNat, bytesBe32 servers.length] ++
      servers.flatMap (fun s => [bytesLe32 s.ipaddress.toNat, bytesBe32 (s.routerId + 1).toNat,
        bytesBe32 changeNumber.toNat]) ++
      [bytesBe32 webcaches.length] ++ webcaches.map webcacheBytes ++
      (List.replicate 256 0).map fun b => [b])
  | .iSeeYou | .removalQuery => []

def messageFields (type : WccpMsgType) (body : List (List UInt8)) : List (List UInt8) :=
  [bytesBe32 type.toNat, bytesBe16 0x200, bytesBe16 body.flatten.length] ++ body

/-- The view, or the assignment, at `c` lists the servers and the web-caches of the group and, for
an assignment, 256 buckets; nothing stands behind that. -/
def ListsGroup (m : Mem) (servers : List WccpServer) (webcaches : List UInt32) (c : Nat) :
    WccpMsgType → Prop
  | .hereIAm => decodeLists m 8 (c + 8) =
      { numRouters := servers.length, routers := servers.map WccpServer.ipaddress
        numWebcaches := webcaches.length, webcaches := webcaches, stop := c + 4 + m.be16 (c + 2) }
  | .redirectAssign => ∃ buckets, buckets + 256 = c + 4 + m.be16 (c + 2) ∧
      decodeLists m 12 (c + 12) =
        { numRouters := servers.length, routers := servers.map WccpServer.ipaddress
          numWebcaches := webcaches.length, webcaches := webcaches, stop := buckets } ∧
      m.read buckets 256 = List.replicate 256 0
  | .iSeeYou | .removalQuery => False

/-- What a receiver finds in the bytes of a well-formed message. -/
structure WellFormedMessage (type : WccpMsgType) (servers : List WccpServer)
    (webcaches : List UInt32) (fields : List (List UInt8)) (bytes : List UInt8) : Prop where
  length : (ofList bytes).be16 6 + 8 = bytes.length
  components : ∃ cs, components (ofList bytes) bytes.length bytes.length 8 = some cs ∧
    cs.map Prod.fst = type.componentTypes ∧
    ∀ c, (5, c) ∈ cs ∨ (6, c) ∈ cs → ListsGroup (ofList bytes) servers webcaches c type
  fields : bytes.length = fields.flatten.length ∧
    (∀ f ∈ placed 0 fields, (ofList bytes).Holds f.1 f.2) ∧
    (placed 0 fields).Pairwise fun f g => f.1 + f.2.length ≤ g.1

section Messages

variable {localIp changeNumber : UInt32} {groupId : UInt8} {servers : List WccpServer}
  {webcaches : List UInt32} {type : WccpMsgType}

theorem flatten_componentFields (type : Nat) (fields : List (List UInt8)) :
    (componentFields type fields).flatten = componentBytes type fields.flatten := by
  simp [componentFields, componentBytes]

theorem flatten_flatMap_fields {α : Type} (f : α → List (List UInt8)) (l : List α) :
    (l.flatMap f).flatten = l.flatMap fun x => (f x).flatten := by
  induction l with
  | nil => rfl
  | cons x l ih => simp [ih]

theorem flatten_bodyFields (type : WccpMsgType) :
    (bodyFields localIp groupId changeNumber servers webcaches type).flatten =
      (messageComponents localIp groupId changeNumber servers webcaches type).flatMap
        fun c => componentBytes c.1 c.2 := by
  cases type with
  | hereIAm =>
    simp only [bodyFields, messageComponents, List.flatten_append, flatten_componentFields,
      flatten_flatMap_fields, List.flatMap_cons, List.flatMap_nil, List.append_nil,
        List.append_assoc,
      List.flatten_cons, List.flatten_nil, ← List.flatMap_def, securityContent, serviceContent,
      webcacheIdContent, viewContent, capabilityContent, capabilityElementBytes, listBytes]
    rfl
  | redirectAssign =>
    simp only [bodyFields, messageComponents, List.flatten_append, flatten_componentFields,
      flatten_flatMap_fields, List.flatMap_cons, List.flatMap_nil, List.append_nil,
        List.append_assoc,
      List.flatten_cons, List.flatten_nil, ← List.flatMap_def, List.flatMap_singleton',
        securityContent,
      serviceContent, assignmentContent, listBytes]
    rfl
  | iSeeYou => rfl
  | removalQuery => rfl

theorem flatten_messageFields (type : WccpMsgType) (body : List (List UInt8)) :
    (messageFields type body).flatten = wccpHeaderBytes type body.flatten.length ++
    body.flatten := by
  simp [messageFields, wccpHeaderBytes]

/-- The components of a message of a service group, one behind the other. -/
def messageBody (localIp : UInt32) (groupId : UInt8) (changeNumber : UInt32)
    (servers : List WccpServer) (webcaches : List UInt32) (type : WccpMsgType) : List UInt8 :=
  (messageComponents localIp groupId changeNumber servers webcaches type).flatMap
    fun c => componentBytes c.1 c.2

theorem length_messageBody_hereIAm :
    (messageBody localIp groupId changeNumber servers webcaches .hereIAm).length =
      120 + 8 * servers.length + 4 * webcaches.length := by
  simp [messageBody, messageComponents, length_viewContent]
  omega

theorem length_messageBody_redirectAssign :
    (messageBody localIp groupId changeNumber servers webcaches .redirectAssign).length =
      312 + 12 * servers.length + 4 * webcaches.length := by
  simp [messageBody, messageComponents, length_assignmentContent]
  omega

end Messages

section Send

variable {A B : Type} {heap : WccpHeap A B} {group : WccpServiceGroup A B} {ss : List A}
  {ws : List B}

theorem Draft.read {type : WccpMsgType} {body : List UInt8} {m : Mem} (h : Draft type body m)
    (hbody : body.length < 65536) : m.read 0 (m.be16 6 + 8) =
    wccpHeaderBytes type body.length ++ body := by
  rw [h.be16_length hbody, Nat.add_comm, ← length_wccpHeaderBytes type body.length,
    ← List.length_append]
  exact Filled.read_all h

theorem wccpSendMessage_hereIAm (localIp : UInt32) (hs : Linked group.servers heap.serverItem ss)
    (hw : Linked group.webcaches heap.webcacheItem ws)
    (hsize : 8 * ss.length + 4 * ws.length < 60000) {body : List UInt8}
    (hbody : body = messageBody localIp group.groupId group.changeNumber (ss.map heap.server)
      (ws.map heap.webcache) .hereIAm) :
    wccpSendMessage heap localIp group .hereIAm =
      .ok (some (wccpHeaderBytes .hereIAm body.length ++ body)) := by
  have hid :=
    (((Draft.header .hereIAm).security (by simp)).service group (by simp)).webcacheId localIp
    (by simp)
  obtain ⟨m, hm, hview⟩ := hid.webcacheView hs hw (by simp; omega)
  have hall := hview.capability (by simp [length_viewContent]; omega)
  have hlength : body.length < 65536 := by
    rw [hbody, length_messageBody_hereIAm, List.length_map, List.length_map]
    omega
  have hdraft : Draft .hereIAm body (wccpAddCapabilityInfo m) := by
    simp only [List.nil_append, List.append_assoc] at hall
    simpa only [hbody, messageBody, messageComponents, List.flatMap_cons, List.flatMap_nil,
      List.append_nil] using hall
  rw [← hdraft.read hlength]
  exact bind_eq_ok.2 ⟨m, hm, rfl⟩

theorem wccpSendMessage_redirectAssign (localIp : UInt32)
    (hs : Linked group.servers heap.serverItem ss)
    (hw : Linked group.webcaches heap.webcacheItem ws)
    (hsize : 12 * ss.length + 4 * ws.length < 60000) {body : List UInt8}
    (hbody : body = messageBody localIp group.groupId group.changeNumber (ss.map heap.server)
      (ws.map heap.webcache) .redirectAssign) :
    wccpSendMessage heap localIp group .redirectAssign =
      .ok (some (wccpHeaderBytes .redirectAssign body.length ++ body)) := by
  have hservice := ((Draft.header .redirectAssign).security (by simp)).service group (by simp)
  obtain ⟨m, hm, hall⟩ := hservice.assignmentInfo localIp hs hw (by simp; omega)
  have hlength : body.length < 65536 := by
    rw [hbody, length_messageBody_redirectAssign, List.length_map, List.length_map]
    omega
  have hdraft : Draft .redirectAssign body m := by
    simp only [List.nil_append, List.append_assoc] at hall
    simpa only [hbody, messageBody, messageComponents, List.flatMap_cons, List.flatMap_nil,
      List.append_nil] using hall
  rw [← hdraft.read hlength]
  exact bind_eq_ok.2 ⟨m, hm, rfl⟩

end Send

/-! ## Well-formedness -/

section WellFormed

variable {localIp changeNumber : UInt32} {groupId : UInt8} {servers : List WccpServer}
  {webcaches : List UInt32} {type : WccpMsgType} {body : List UInt8}

theorem underWay_component (header : List UInt8) (before after : List (Nat × List UInt8))
    (type : Nat) (content : List UInt8) :
    UnderWay (header ++ before.flatMap fun c => componentBytes c.1 c.2) type content.length
      (content ++ after.flatMap fun c => componentBytes c.1 c.2)
      (ofList (header ++ (before ++ (type, content) :: after).flatMap
        fun c => componentBytes c.1 c.2)) := by
  have hall := filled_ofList (header ++ (before ++ (type, content) :: after).flatMap
    fun c => componentBytes c.1 c.2)
  generalize ofList _ = m at hall ⊢
  rw [List.flatMap_append, List.flatMap_cons] at hall
  unfold UnderWay
  simpa only [componentBytes, List.append_assoc] using hall

theorem UnderWay.holds_content {pre a l b rest : List UInt8} {type length k : Nat} {m : Mem}
    (h : UnderWay pre type length (a ++ l ++ b ++ rest) m) (hk : k = pre.length + 4 + a.length) :
    m.Holds k l := by
  refine Filled.holds (a := pre ++ bytesBe16 type ++ bytesBe16 length ++ a) (b := b ++ rest) ?_ ?_
  · simpa only [UnderWay, List.append_assoc] using h
  · simp only [List.length_append, length_bytesBe16]
    omega

theorem listsGroup_hereIAm (n : Nat) (hsize : 8 * servers.length + 4 * webcaches.length < 60000) :
    ListsGroup (ofList (wccpHeaderBytes .hereIAm n ++
      messageBody localIp groupId changeNumber servers webcaches .hereIAm)) servers webcaches 92
      .hereIAm := by
  have hlength := length_viewContent changeNumber servers webcaches
  have hway : UnderWay _ 5 _ _ (ofList (wccpHeaderBytes .hereIAm n ++
      messageBody localIp groupId changeNumber servers webcaches .hereIAm)) :=
    underWay_component _ [(0, securityContent), (1, serviceContent groupId),
      (3, webcacheIdContent localIp)] [(8, capabilityContent)] 5
        (viewContent changeNumber servers webcaches)
  generalize ofList _ = m at hway ⊢
  have hstop := hway.be16_length (by omega)
  have hheld := UnderWay.holds_content (k := 100)
    (l := listBytes routerIdBytes servers ++ listBytes webcacheBytes webcaches)
    (a := bytesBe32 changeNumber.toNat) (b := [])
    (by simpa only [viewContent, List.append_nil, List.append_assoc] using hway) rfl
  have hdecode :=
    decodeLists_eq routerIdElement_writes (fun x => ⟨_, rfl⟩) (by omega) (by omega) hheld
  refine hdecode.trans ?_
  simp only [GroupLists.mk.injEq, true_and]
  refine Eq.trans ?_ (congrArg (92 + 4 + ·) hstop.symm)
  rw [List.length_append, routerIdElement_writes.length_listBytes,
    webcacheElement_writes.length_listBytes, hlength]
  simp only [routerIdElement, webcacheElement]
  omega

theorem listsGroup_redirectAssign (n : Nat)
    (hsize : 12 * servers.length + 4 * webcaches.length < 60000) :
    ListsGroup (ofList (wccpHeaderBytes .redirectAssign n ++
      messageBody localIp groupId changeNumber servers webcaches .redirectAssign))
        servers webcaches 44
      .redirectAssign := by
  have hlength := length_assignmentContent localIp changeNumber servers webcaches
  have hway : UnderWay _ 6 _ _ (ofList (wccpHeaderBytes .redirectAssign n ++
      messageBody localIp groupId changeNumber servers webcaches .redirectAssign)) :=
    underWay_component _ [(0, securityContent), (1, serviceContent groupId)] [] 6
      (assignmentContent localIp changeNumber servers webcaches)
  generalize ofList _ = m at hway ⊢
  have hstop := hway.be16_length (by omega)
  have hheld := UnderWay.holds_content (k := 56)
    (l := listBytes (routerAssignmentBytes changeNumber) servers ++
      listBytes webcacheBytes webcaches)
    (a := bytesLe32 localIp.toNat ++ bytesBe32 changeNumber.toNat) (b := List.replicate 256 0)
    (by simpa only [assignmentContent, List.append_nil, List.append_assoc] using hway) rfl
  have hdecode := decodeLists_eq (routerAssignmentElement_writes changeNumber) (fun x => ⟨_, rfl⟩)
    (by omega) (by omega) hheld
  have hlists : (listBytes (routerAssignmentBytes changeNumber) servers ++
      listBytes webcacheBytes webcaches).length =
        8 + 12 * servers.length + 4 * webcaches.length := by
    rw [List.length_append, (routerAssignmentElement_writes changeNumber).length_listBytes,
      webcacheElement_writes.length_listBytes]
    simp only [routerAssignmentElement, webcacheElement]
    omega
  have hbuckets := UnderWay.holds_content (k := 56 + (listBytes (routerAssignmentBytes changeNumber)
      servers ++ listBytes webcacheBytes webcaches).length) (l := List.replicate 256 0)
    (a := bytesLe32 localIp.toNat ++ bytesBe32 changeNumber.toNat ++
      (listBytes (routerAssignmentBytes changeNumber) servers ++ listBytes webcacheBytes webcaches))
    (b := []) (by simpa only [assignmentContent, List.append_nil, List.append_assoc] using hway)
    (by simp; omega)
  refine ⟨_, ?_, hdecode, ?_⟩
  · refine Eq.trans ?_ (congrArg (44 + 4 + ·) hstop.symm)
    rw [hlists, hlength]
    omega
  · exact hbuckets.read List.length_replicate

theorem wellFormedMessage_of {cs : List (Nat × List UInt8)}
    (hcs : messageComponents localIp groupId changeNumber servers webcaches type = cs)
    (hbody : body = messageBody localIp groupId changeNumber servers webcaches type)
    (hlength : body.length < 65536) (htypes : cs.map Prod.fst = type.componentTypes)
    (hfew : cs.length < 8) (hsmall : ∀ c ∈ cs, c.1 < 65536 ∧ c.2.length < 65536)
    (hlists : ∀ c, (5, c) ∈ offsets 8 cs ∨ (6, c) ∈ offsets 8 cs →
      ListsGroup (ofList (wccpHeaderBytes type body.length ++ body)) servers webcaches c type) :
    WellFormedMessage type servers webcaches
      (messageFields type (bodyFields localIp groupId changeNumber servers webcaches type))
      (wccpHeaderBytes type body.length ++ body) := by
  have hbytes : body = cs.flatMap fun c => componentBytes c.1 c.2 := by
    rw [hbody, messageBody, hcs]
  have hfields : (messageFields type (bodyFields localIp groupId changeNumber servers webcaches
      type)).flatten = wccpHeaderBytes type body.length ++ body := by
    rw [flatten_messageFields, flatten_bodyFields, hbody]
    rfl
  have hdraft : Draft type body (ofList (wccpHeaderBytes type body.length ++ body)) :=
    filled_ofList _
  have htotal : (wccpHeaderBytes type body.length ++ body).length = body.length + 8 := by
    rw [List.length_append, length_wccpHeaderBytes, Nat.add_comm]
  refine ⟨?_, ⟨offsets 8 cs, ?_, (map_fst_offsets 8 cs).trans htypes, hlists⟩, ?_, ?_,
    pairwise_placed 0 _⟩
  · rw [hdraft.be16_length hlength, htotal]
  · rw [← length_wccpHeaderBytes type body.length]
    refine components_eq ?_ ?_ hsmall (by omega)
    · rw [← hbytes]
      exact hdraft
    · rw [← hbytes]
  · rw [hfields]
  · apply holds_placed
    rw [hfields]
    exact Filled.read_all hdraft

theorem wellFormed_hereIAm (hsize : 8 * servers.length + 4 * webcaches.length < 60000)
    (hbody : body = messageBody localIp groupId changeNumber servers webcaches .hereIAm) :
    WellFormedMessage .hereIAm servers webcaches
      (messageFields .hereIAm (bodyFields localIp groupId changeNumber servers webcaches .hereIAm))
      (wccpHeaderBytes .hereIAm body.length ++ body) := by
  have hview := length_viewContent changeNumber servers webcaches
  have hlength : body.length = _ := congrArg List.length hbody |>.trans length_messageBody_hereIAm
  refine wellFormedMessage_of rfl hbody (by omega) rfl (by simp [messageComponents]) ?_ ?_
  · intro c hc
    simp only [messageComponents, List.mem_cons, List.not_mem_nil, or_false] at hc
    rcases hc with rfl | rfl | rfl | rfl | rfl
    all_goals simp
    omega
  · intro c hc
    simp only [messageComponents, offsets, List.mem_cons, List.not_mem_nil, or_false, Prod.mk.injEq,
      length_componentBytes, length_securityContent, length_serviceContent,
      length_webcacheIdContent] at hc
    have hc : c = 92 := by omega
    rw [hc, hbody]
    exact listsGroup_hereIAm _ hsize

theorem wellFormed_redirectAssign (hsize : 12 * servers.length + 4 * webcaches.length < 60000)
    (hbody : body = messageBody localIp groupId changeNumber servers webcaches .redirectAssign) :
    WellFormedMessage .redirectAssign servers webcaches
      (messageFields .redirectAssign
        (bodyFields localIp groupId changeNumber servers webcaches .redirectAssign))
      (wccpHeaderBytes .redirectAssign body.length ++ body) := by
  have hassignment := length_assignmentContent localIp changeNumber servers webcaches
  have hlength : body.length = _ :=
    congrArg List.length hbody |>.trans length_messageBody_redirectAssign
  refine wellFormedMessage_of rfl hbody (by omega) rfl (by simp [messageComponents]) ?_ ?_
  · intro c hc
    simp only [messageComponents, List.mem_cons, List.not_mem_nil, or_false] at hc
    rcases hc with rfl | rfl | rfl
    all_goals simp
    omega
  · intro c hc
    simp only [messageComponents, offsets, List.mem_cons, List.not_mem_nil, or_false, Prod.mk.injEq,
      length_componentBytes, length_securityContent, length_serviceContent] at hc
    have hc : c = 44 := by omega
    rw [hc, hbody]
    exact listsGroup_redirectAssign _ hsize

end WellFormed

/-- **Every message of a service group is well-formed**: the length in its header is the number of
bytes sent, a receiver visits its components and ends at its end, decodes the servers and web-caches
of the group from them, and no two fields overlap. -/
theorem wccpSendMessage_wellFormed {A B : Type} (heap : WccpHeap A B) (localIp : UInt32)
    (group : WccpServiceGroup A B) {ss : List A} {ws : List B} (type : WccpMsgType)
    (htype : type = .hereIAm ∨ type = .redirectAssign)
    (hs : Linked group.servers heap.serverItem ss)
    (hw : Linked group.webcaches heap.webcacheItem ws)
    (hfits : type.size ss.length ws.length ≤ 1024) :
    ∃ bytes, wccpSendMessage heap localIp group type = .ok (some bytes) ∧
      bytes.length = type.size ss.length ws.length ∧
      WellFormedMessage type (ss.map heap.server) (ws.map heap.webcache)
        (messageFields type
          (bodyFields localIp group.groupId group.changeNumber (ss.map heap.server)
          (ws.map heap.webcache) type)) bytes := by
  rcases htype with rfl | rfl
  · have hsize : 128 + 8 * ss.length + 4 * ws.length ≤ 1024 := hfits
    refine ⟨_, wccpSendMessage_hereIAm localIp hs hw (by omega) rfl, ?_,
      wellFormed_hereIAm (by simp only [List.length_map]; omega) rfl⟩
    rw [List.length_append, length_wccpHeaderBytes, length_messageBody_hereIAm, WccpMsgType.size,
      List.length_map, List.length_map]
    omega
  · have hsize : 320 + 12 * ss.length + 4 * ws.length ≤ 1024 := hfits
    refine ⟨_, wccpSendMessage_redirectAssign localIp hs hw (by omega) rfl, ?_,
      wellFormed_redirectAssign (by simp only [List.length_map]; omega) rfl⟩
    rw [List.length_append, length_wccpHeaderBytes, length_messageBody_redirectAssign,
      WccpMsgType.size, List.length_map, List.length_map]
    omega

/-! ### Two routers and a web-cache -/

def pairGroup : WccpServiceGroup Bool Unit where
  groupId := 61
  changeNumber := 3
  servers := ⟨some false, some true, 2⟩
  webcaches := ⟨some (), some (), 1⟩

def pairHeap : WccpHeap Bool Unit where
  serverItem b := if b then ⟨none, some false⟩ else ⟨some true, none⟩
  server b := if b then ⟨0x0202A8C0, 0x0202A8C0⟩ else ⟨0x0102A8C0, 0x0102A8C0⟩
  webcacheItem _ := ⟨none, none⟩
  webcache _ := 0x0A02A8C0

theorem linked_servers : Linked pairGroup.servers pairHeap.serverItem [false, true] :=
  ⟨⟨by simp, ⟨rfl, rfl, rfl⟩, ⟨rfl, rfl, rfl⟩⟩, rfl⟩

theorem linked_webcaches : Linked pairGroup.webcaches pairHeap.webcacheItem [()] :=
  ⟨⟨by simp, ⟨rfl, rfl⟩, ⟨rfl, rfl⟩⟩, rfl⟩

theorem wccpSendMessage_pair :
    Linked pairGroup.servers pairHeap.serverItem [false, true] ∧
    Linked pairGroup.webcaches pairHeap.webcacheItem [()] ∧
    ∃ bytes, wccpSendMessage pairHeap 0x0A02A8C0 pairGroup .redirectAssign = .ok (some bytes) ∧
      bytes.length = 348 ∧
      WellFormedMessage .redirectAssign
        [⟨0x0102A8C0, 0x0102A8C0⟩, ⟨0x0202A8C0, 0x0202A8C0⟩] [0x0A02A8C0]
        (messageFields .redirectAssign (bodyFields 0x0A02A8C0 61 3
          [⟨0x0102A8C0, 0x0102A8C0⟩, ⟨0x0202A8C0, 0x0202A8C0⟩] [0x0A02A8C0] .redirectAssign))
          bytes :=
  ⟨linked_servers, linked_webcaches, wccpSendMessage_wellFormed pairHeap 0x0A02A8C0 pairGroup
    .redirectAssign (Or.inr rfl) linked_servers linked_webcaches (by simp [WccpMsgType.size])⟩

end Opennop
