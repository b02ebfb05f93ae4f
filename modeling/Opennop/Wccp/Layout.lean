import Opennop.Wccp.Message

/-!
# The bytes of a WCCP message

What each function of the message builder leaves in the buffer. A `Draft` is a header with its
components, as it stands between two of these functions; a component that is `UnderWay` has its type
and a length that still may change. The functions append: their stores go right behind what has been
written, and only the two length fields are written again.
-/

namespace Opennop

open Mem

/-! ## Drafts and components -/

def wccpHeaderBytes (type : WccpMsgType) (length : Nat) : List UInt8 :=
  bytesBe32 type.toNat ++ (bytesBe16 0x200 ++ bytesBe16 length)

def componentBytes (type : Nat) (rest : List UInt8) : List UInt8 :=
  bytesBe16 type ++ (bytesBe16 rest.length ++ rest)

@[simp] theorem length_wccpHeaderBytes (type : WccpMsgType) (n : Nat) :
    (wccpHeaderBytes type n).length = 8 := rfl

@[simp] theorem length_componentBytes (type : Nat) (rest : List UInt8) :
    (componentBytes type rest).length = 4 + rest.length := by
  simp [componentBytes]
  omega

/-- A message whose components so far are `body`. -/
def Draft (type : WccpMsgType) (body : List UInt8) (m : Mem) : Prop :=
  Filled m (wccpHeaderBytes type body.length ++ body)

/-- A component behind `pre`, with `rest` behind its length field. -/
def UnderWay (pre : List UInt8) (type length : Nat) (rest : List UInt8) (m : Mem) : Prop :=
  Filled m (pre ++ (bytesBe16 type ++ (bytesBe16 length ++ rest)))

namespace UnderWay

variable {pre rest x : List UInt8} {type length k : Nat} {m : Mem}

theorem length_written :
    (pre ++ (bytesBe16 type ++ (bytesBe16 length ++ rest))).length =
    pre.length + 4 + rest.length := by
  simp
  omega

theorem append (h : Filled m (pre ++ (bytesBe16 type ++ (bytesBe16 length ++ rest)) ++ x)) :
    UnderWay pre type length (rest ++ x) m := by
  simp only [List.append_assoc] at h
  exact h

theorem set (h : UnderWay pre type length rest m) (v : UInt8)
    (hk : k = pre.length + 4 + rest.length) :
    UnderWay pre type length (rest ++ [v]) (m.set k v) :=
  append (h.set_end (hk.trans length_written.symm) v)

theorem setBe16 (h : UnderWay pre type length rest m) (v : Nat)
    (hk : k = pre.length + 4 + rest.length) :
    UnderWay pre type length (rest ++ bytesBe16 v) (m.setBe16 k v) :=
  append (h.setBe16_end (hk.trans length_written.symm) v)

theorem setBe32 (h : UnderWay pre type length rest m) (v : Nat)
    (hk : k = pre.length + 4 + rest.length) :
    UnderWay pre type length (rest ++ bytesBe32 v) (m.setBe32 k v) :=
  append (h.setBe32_end (hk.trans length_written.symm) v)

theorem setLe32 (h : UnderWay pre type length rest m) (v : Nat)
    (hk : k = pre.length + 4 + rest.length) :
    UnderWay pre type length (rest ++ bytesLe32 v) (m.setLe32 k v) :=
  append (h.setLe32_end (hk.trans length_written.symm) v)

theorem pad (h : UnderWay pre type length rest m) (n : Nat) :
    UnderWay pre type length (rest ++ List.replicate n 0) m :=
  append (Filled.pad h n)

theorem fill (h : UnderWay pre type length rest m) (n : Nat)
    (hk : k = pre.length + 4 + rest.length) :
    UnderWay pre type length (rest ++ List.replicate n 0) (m.fill k n 0) :=
  append (Filled.fill_end h (hk.trans length_written.symm) n)

/-! ### The length field -/

theorem be16_length (h : UnderWay pre type length rest m) (hlength : length < 65536) :
    m.be16 (pre.length + 2) = length := by
  have hheld : m.Holds (pre.length + 2) (bytesBe16 length) := by
    refine Filled.holds (a := pre ++ bytesBe16 type) (b := rest) ?_ (by simp)
    rw [List.append_assoc]
    exact h
  exact be16_of_holds hheld hlength

theorem setLength (h : UnderWay pre type length rest m) (v : Nat) :
    UnderWay pre type v rest (m.setBe16 (pre.length + 2) v) := by
  have hfront : Filled m ((pre ++ bytesBe16 type) ++ (bytesBe16 length ++ rest)) := by
    rw [List.append_assoc]
    exact h
  have hset := hfront.setBe16_mid (k := pre.length + 2) (by simp) v
  rw [List.append_assoc] at hset
  exact hset

theorem grow (h : UnderWay pre type length rest m) (hlength : length < 65536) (v : Nat) :
    UnderWay pre type (length + v) rest (growComponent m pre.length v) := by
  unfold growComponent
  rw [h.be16_length hlength]
  exact h.setLength _

end UnderWay

namespace Draft

variable {type : WccpMsgType} {body rest : List UInt8} {m : Mem}

theorem header (type : WccpMsgType) : Draft type [] (wccpAddHeader type fun _ => 0) := by
  have h₁ := Filled.zero.setBe32_end (k := 0) rfl type.toNat
  have h₂ := h₁.setBe16_end (k := 4) rfl 0x200
  have h₃ := h₂.setBe16_end (k := 6) rfl 0
  exact h₃

theorem be16_length (h : Draft type body m) (hbody : body.length < 65536) :
    m.be16 6 = body.length := by
  have hheld : m.Holds 6 (bytesBe16 body.length) :=
    Filled.holds (a := bytesBe32 type.toNat ++ bytesBe16 0x200) (b := body) h rfl
  exact be16_of_holds hheld hbody

theorem getWccpMessageLength_eq (h : Draft type body m) (hbody : body.length < 65536) :
    getWccpMessageLength m = (wccpHeaderBytes type body.length ++ body).length := by
  unfold getWccpMessageLength
  rw [h.be16_length hbody, List.length_append, length_wccpHeaderBytes, Nat.add_comm]

theorem start (h : Draft type body m) (component : Nat) :
    UnderWay (wccpHeaderBytes type body.length ++ body) component 0 []
      (m.setBe16 (wccpHeaderBytes type body.length ++ body).length component) := by
  have hpad := (Filled.setBe16_end h rfl component).pad 2
  rw [List.append_assoc] at hpad
  exact hpad

/-- A component is closed: the header announces it from now on. -/
theorem close {component : Nat}
    (h : UnderWay (wccpHeaderBytes type body.length ++ body) component rest.length rest m)
    (hsize : body.length + rest.length + 4 < 65536) :
    Draft type (body ++ componentBytes component rest)
      (updateWccpMessageLength m
        (m.be16 ((wccpHeaderBytes type body.length ++ body).length + 2))) := by
  rw [h.be16_length (by omega)]
  have hfront : Filled m ((bytesBe32 type.toNat ++ bytesBe16 0x200) ++ (bytesBe16 body.length ++
      (body ++ componentBytes component rest))) := by
    have hall :
      Filled m (wccpHeaderBytes type body.length ++ body ++ componentBytes component rest) := h
    rw [List.append_assoc] at hall
    exact hall
  have hlength : m.be16 6 = body.length := be16_of_holds (hfront.holds rfl) (by omega)
  have hset := hfront.setBe16_mid (k := 6) rfl (m.be16 6 + rest.length + 4)
  have htotal : body.length + rest.length + 4 = (body ++ componentBytes component rest).length := by
    simp
    omega
  rw [hlength, htotal] at hset
  unfold updateWccpMessageLength Draft
  rw [hlength, htotal]
  exact hset

end Draft

/-! ## Components of a fixed size -/

def securityContent : List UInt8 := bytesBe32 0

def serviceContent (groupId : UInt8) : List UInt8 :=
  [1] ++ [UInt8.ofNat (htons groupId.toNat)] ++ [200] ++ [0] ++ bytesBe32 15 ++ List.replicate 16 0

def webcacheIdContent (localIp : UInt32) : List UInt8 :=
  bytesLe32 localIp.toNat ++ bytesBe16 0 ++ List.replicate 34 0 ++ bytesBe16 0 ++ bytesBe16 0

def capabilityElementBytes (type value : Nat) : List UInt8 :=
  bytesBe16 type ++ bytesBe16 4 ++ bytesBe32 value

def capabilityContent : List UInt8 := capabilityElementBytes 1 2 ++ capabilityElementBytes 3 2

@[simp] theorem length_capabilityElementBytes (type value : Nat) :
    (capabilityElementBytes type value).length = 8 := rfl

@[simp] theorem length_securityContent : securityContent.length = 4 := rfl

@[simp] theorem length_serviceContent (groupId : UInt8) : (serviceContent groupId).length = 24 :=
  rfl

@[simp] theorem length_webcacheIdContent (localIp : UInt32) :
    (webcacheIdContent localIp).length = 44 := rfl

@[simp] theorem length_capabilityContent : capabilityContent.length = 16 := rfl

section Fixed

variable {A B : Type} {type : WccpMsgType} {body : List UInt8} {m : Mem}

theorem Draft.security (h : Draft type body m) (hbody : body.length < 65000) :
    Draft type (body ++ componentBytes 0 securityContent) (wccpAddSecurityComponent m) := by
  unfold wccpAddSecurityComponent
  rw [h.getWccpMessageLength_eq (by omega)]
  have hall := ((h.start 0).setLength 4).setBe32 0 rfl
  exact Draft.close hall (by simp; omega)

theorem Draft.service (h : Draft type body m) (group : WccpServiceGroup A B)
    (hbody : body.length < 65000) :
    Draft type (body ++ componentBytes 1 (serviceContent group.groupId))
       (wccpAddServiceComponent group m) := by
  unfold wccpAddServiceComponent
  rw [h.getWccpMessageLength_eq (by omega)]
  have hbytes := (((((h.start 1).setLength 24).set 1 rfl).set
    (UInt8.ofNat (htons group.groupId.toNat)) rfl).set 200 rfl).set 0 rfl
  have hall := (hbytes.setBe32 15 rfl).pad 16
  exact Draft.close hall (by simp; omega)

theorem Draft.webcacheId (h : Draft type body m) (localIp : UInt32) (hbody : body.length < 65000) :
    Draft type (body ++ componentBytes 3 (webcacheIdContent localIp))
      (wccpAddWebcacheIdComponent localIp m) := by
  unfold wccpAddWebcacheIdComponent
  rw [h.getWccpMessageLength_eq (by omega)]
  have hcache := (((h.start 3).setLength 44).setLe32 localIp.toNat rfl).setBe16 0 rfl
  have hall := ((hcache.pad 34).setBe16 0 rfl).setBe16 0 rfl
  exact Draft.close hall (by simp; omega)

theorem UnderWay.capabilityElement {pre rest : List UInt8} {component : Nat}
    (h : UnderWay pre component rest.length rest m) (hrest : rest.length < 65000)
    (type value : Nat) :
    UnderWay pre component (rest ++ capabilityElementBytes type value).length
      (rest ++ capabilityElementBytes type value)
      (wccpAddCapabilityElement m pre.length type value) := by
  unfold wccpAddCapabilityElement
  rw [h.be16_length (by omega), List.length_append]
  have htype := h.setBe16 (k := pre.length + rest.length + 4) type (by omega)
  have hlength := htype.setBe16 (k := pre.length + rest.length + 4 + 2) 4 (by simp; omega)
  have hvalue := hlength.setBe32 (k := pre.length + rest.length + 4 + 4) value (by simp; omega)
  have hgrown := hvalue.grow (by omega) 8
  simp only [List.append_assoc] at hgrown
  exact hgrown

theorem Draft.capability (h : Draft type body m) (hbody : body.length < 65000) :
    Draft type (body ++ componentBytes 8 capabilityContent) (wccpAddCapabilityInfo m) := by
  unfold wccpAddCapabilityInfo
  rw [h.getWccpMessageLength_eq (by omega)]
  have hstart : UnderWay _ 8 ([] : List UInt8).length [] _ := (h.start 8).setLength 0
  have hforward := hstart.capabilityElement (by simp) 1 2
  have hall := hforward.capabilityElement (by simp) 3 2
  exact Draft.close hall (by simp; omega)

end Fixed

/-! ## Lists of elements -/

/-- Elements are written as `bytes`. -/
structure WccpElement.Writes {α : Type} (element : WccpElement α) (bytes : α → List UInt8) :
    Prop where
  length : ∀ x, (bytes x).length = element.size
  put : ∀ {m : Mem} {l : List UInt8} {k : Nat} (x : α), Filled m l → k = l.length →
    Filled (element.put m k x) (l ++ bytes x)

def routerIdBytes (server : WccpServer) : List UInt8 :=
  bytesLe32 server.ipaddress.toNat ++ bytesBe32 server.routerId.toNat

def routerAssignmentBytes (changeNumber : UInt32) (server : WccpServer) : List UInt8 :=
  bytesLe32 server.ipaddress.toNat ++ bytesBe32 (server.routerId + 1).toNat ++
    bytesBe32 changeNumber.toNat

def webcacheBytes (ipaddress : UInt32) : List UInt8 := bytesLe32 ipaddress.toNat

theorem routerIdElement_writes : routerIdElement.Writes routerIdBytes where
  length _ := rfl
  put := by
    intro m l k server h hk
    have hip := h.setLe32_end hk server.ipaddress.toNat
    have hall := hip.setBe32_end (k := k + 4) (by simp [hk]) server.routerId.toNat
    rw [List.append_assoc] at hall
    exact hall

theorem routerAssignmentElement_writes (changeNumber : UInt32) :
    (routerAssignmentElement changeNumber).Writes (routerAssignmentBytes changeNumber) where
  length _ := rfl
  put := by
    intro m l k server h hk
    have hip := h.setLe32_end hk server.ipaddress.toNat
    have hid := hip.setBe32_end (k := k + 4) (by simp [hk]) (server.routerId + 1).toNat
    have hall := hid.setBe32_end (k := k + 8) (by simp [hk]) changeNumber.toNat
    simp only [List.append_assoc] at hall
    exact hall

theorem webcacheElement_writes : webcacheElement.Writes webcacheBytes where
  length _ := rfl
  put ipaddress h hk := h.setLe32_end hk ipaddress.toNat

def listBytes {α : Type} (bytes : α → List UInt8) (l : List α) : List UInt8 :=
  bytesBe32 l.length ++ l.flatMap bytes

section Elements

variable {C α : Type} {item : C → ListItem C} {element : WccpElement α} {bytes : α → List UInt8}
  {pre : List UInt8} {type : Nat}

theorem WccpElement.Writes.length_flatMap (he : element.Writes bytes) (l : List α) :
    (l.flatMap bytes).length = l.length * element.size := by
  induction l with
  | nil => simp
  | cons x l ih => rw [List.flatMap_cons, List.length_append, ih, he.length, List.length_cons,
      Nat.succ_mul, Nat.add_comm]

theorem WccpElement.Writes.length_listBytes (he : element.Writes bytes) (l : List α) :
    (listBytes bytes l).length = 4 + l.length * element.size := by
  rw [listBytes, List.length_append, he.length_flatMap, length_bytesBe32]

/-- The loop over a list appends an element for each item and announces it in the component's
length. -/
theorem loop_elementPass (value : C → α) (he : element.Writes bytes) {l : List C} :
    ∀ {rest : List UInt8} {start : Option C} {m : Mem} {length : Nat},
      Seg (fun a => (item a).next) start l none → UnderWay pre type length rest m →
      length + l.length * element.size < 65536 →
      ∃ m', loop (elementPass item value element pre.length) (l.length + 1)
          (start, pre.length + 4 + rest.length, m) = .ok m' ∧
        UnderWay pre type (length + l.length * element.size)
          (rest ++ (l.map value).flatMap bytes) m' := by
  induction l with
  | nil =>
    intro rest start m length hseg hway _
    have hstart : start = none := hseg
    subst hstart
    refine ⟨m, rfl, ?_⟩
    simpa using hway
  | cons a l ih =>
    intro rest start m length hseg hway hsize
    obtain ⟨rfl, htail⟩ := Seg.cons_iff.1 hseg
    rw [List.length_cons, Nat.succ_mul] at hsize
    have hput := UnderWay.append (he.put (value a) hway UnderWay.length_written.symm)
    have hgrown := hput.grow (by omega) element.size
    obtain ⟨m', hloop, hway'⟩ := ih htail hgrown (by omega)
    refine ⟨m', ?_, ?_⟩
    · rw [List.length_cons, loop_again rfl, ← hloop, List.length_append, he.length,
        Nat.add_assoc _ rest.length]
    · rw [List.append_assoc, ← List.flatMap_cons, ← List.map_cons] at hway'
      rwa [List.length_cons, Nat.succ_mul, Nat.add_comm (l.length * _), ← Nat.add_assoc]

/-- **A list in memory becomes its count and its elements.** -/
theorem UnderWay.elements {rest : List UInt8} {m : Mem} {length k : Nat} {head : ListHead C}
    {l : List C} (h : UnderWay pre type length rest m) (value : C → α) (he : element.Writes bytes)
    (hl : Linked head item l) (hk : k = pre.length + 4 + rest.length)
    (hsize : length + 4 + l.length * element.size < 65536) :
    ∃ m', addElements head item value element pre.length k m = .ok m' ∧
      UnderWay pre type (length + 4 + l.length * element.size)
        (rest ++ listBytes bytes (l.map value)) m' := by
  unfold addElements
  rw [hl.count]
  have hcount := (h.setBe32 l.length hk).grow (by omega) 4
  obtain ⟨m', hloop, hway⟩ := loop_elementPass value he hl.list.forward hcount (by omega)
  refine ⟨m', ?_, ?_⟩
  · rw [← hloop, hk, List.length_append, length_bytesBe32, Nat.add_assoc _ rest.length]
  · rw [List.append_assoc] at hway
    unfold listBytes
    rwa [List.length_map]

theorem behindElements_eq {head : ListHead C} {l : List C} (value : C → α)
    (he : element.Writes bytes) (hl : Linked head item l) (position : Nat) :
    behindElements head element position = position + (listBytes bytes (l.map value)).length := by
  rw [he.length_listBytes, behindElements, hl.count, List.length_map]
  split
  · omega
  · have hnil : l.length = 0 := by omega
    rw [hnil]
    omega

end Elements

/-! ## Components with lists -/

def viewContent (changeNumber : UInt32) (servers : List WccpServer) (webcaches : List UInt32) :
    List UInt8 :=
  bytesBe32 changeNumber.toNat ++ listBytes routerIdBytes servers ++
    listBytes webcacheBytes webcaches

def assignmentContent (localIp changeNumber : UInt32) (servers : List WccpServer)
    (webcaches : List UInt32) : List UInt8 :=
  bytesLe32 localIp.toNat ++ bytesBe32 changeNumber.toNat ++
    listBytes (routerAssignmentBytes changeNumber) servers ++ listBytes webcacheBytes webcaches ++
    List.replicate 256 0

theorem length_viewContent (changeNumber : UInt32) (servers : List WccpServer)
    (webcaches : List UInt32) :
    (viewContent changeNumber servers webcaches).length =
      12 + 8 * servers.length + 4 * webcaches.length := by
  simp only [viewContent, List.length_append, length_bytesBe32,
    routerIdElement_writes.length_listBytes, webcacheElement_writes.length_listBytes,
      routerIdElement,
    webcacheElement]
  omega

theorem length_assignmentContent (localIp changeNumber : UInt32) (servers : List WccpServer)
    (webcaches : List UInt32) :
    (assignmentContent localIp changeNumber servers webcaches).length =
      272 + 12 * servers.length + 4 * webcaches.length := by
  simp only [assignmentContent, List.length_append, length_bytesBe32, length_bytesLe32,
    List.length_replicate, (routerAssignmentElement_writes changeNumber).length_listBytes,
    webcacheElement_writes.length_listBytes, routerAssignmentElement, webcacheElement]
  omega

section Lists

variable {A B : Type} {heap : WccpHeap A B} {group : WccpServiceGroup A B} {ss : List A}
  {ws : List B} {type : WccpMsgType} {body : List UInt8} {m : Mem}

theorem UnderWay.lists {pre rest : List UInt8} {component length k : Nat}
    {element : WccpElement WccpServer} {bytes : WccpServer → List UInt8}
    (h : UnderWay pre component length rest m) (hlength : length = rest.length)
    (he : element.Writes bytes) (hs : Linked group.servers heap.serverItem ss)
    (hw : Linked group.webcaches heap.webcacheItem ws) (hk : k = pre.length + 4 + rest.length)
    (hsize : rest.length + 8 + ss.length * element.size + ws.length * 4 < 65536) :
    ∃ m₁ m₂, addElements group.servers heap.serverItem heap.server element pre.length k m = .ok m₁ ∧
      addElements group.webcaches heap.webcacheItem heap.webcache webcacheElement pre.length
        (behindElements group.servers element k) m₁ = .ok m₂ ∧
      behindElements group.webcaches webcacheElement (behindElements group.servers element k) =
        pre.length + 4 + (rest ++ listBytes bytes (ss.map heap.server) ++
          listBytes webcacheBytes (ws.map heap.webcache)).length ∧
      UnderWay pre component (rest ++ listBytes bytes (ss.map heap.server) ++
          listBytes webcacheBytes (ws.map heap.webcache)).length
        (rest ++ listBytes bytes (ss.map heap.server) ++
          listBytes webcacheBytes (ws.map heap.webcache)) m₂ := by
  subst hlength
  have hbehind := behindElements_eq heap.server he hs k
  have hsecond := behindElements_eq heap.webcache webcacheElement_writes hw
    (behindElements group.servers element k)
  obtain ⟨m₁, hm₁, hservers⟩ := h.elements heap.server he hs hk (by omega)
  obtain ⟨m₂, hm₂, hwebcaches⟩ := hservers.elements
    (k := behindElements group.servers element k) heap.webcache webcacheElement_writes hw
    (by rw [hbehind, List.length_append]; omega) (by simp only [webcacheElement]; omega)
  refine ⟨m₁, m₂, hm₁, hm₂, ?_, ?_⟩
  · rw [hsecond, hbehind, List.length_append, List.length_append]
    omega
  · have hlength : (rest ++ listBytes bytes (ss.map heap.server) ++
        listBytes webcacheBytes (ws.map heap.webcache)).length =
          rest.length + 4 + ss.length * element.size + 4 + ws.length * webcacheElement.size := by
      rw [List.length_append, List.length_append, he.length_listBytes,
        webcacheElement_writes.length_listBytes, List.length_map, List.length_map]
      omega
    rwa [hlength]

theorem Draft.webcacheView (h : Draft type body m) (hs : Linked group.servers heap.serverItem ss)
    (hw : Linked group.webcaches heap.webcacheItem ws)
    (hsize : body.length + 8 * ss.length + 4 * ws.length < 65000) :
    ∃ m', wccpAddWebcacheViewComponent heap group m = .ok m' ∧
      Draft type (body ++ componentBytes 5
        (viewContent group.changeNumber (ss.map heap.server) (ws.map heap.webcache))) m' := by
  have hfront := ((h.start 5).setLength 4).setBe32 group.changeNumber.toNat rfl
  obtain ⟨m₁, m₂, hm₁, hm₂, -, hall⟩ := hfront.lists (by simp) routerIdElement_writes hs hw
    (k := (wccpHeaderBytes type body.length ++ body).length + 8) (by simp)
    (by simp [routerIdElement]; omega)
  have hlength := length_viewContent group.changeNumber (ss.map heap.server) (ws.map heap.webcache)
  rw [List.length_map, List.length_map] at hlength
  refine ⟨_, ?_, Draft.close hall (by omega)⟩
  unfold wccpAddWebcacheViewComponent
  rw [h.getWccpMessageLength_eq (by omega)]
  exact bind_eq_ok.2 ⟨m₁, hm₁, bind_eq_ok.2 ⟨m₂, hm₂, rfl⟩⟩

theorem Draft.assignmentInfo (h : Draft type body m) (localIp : UInt32)
    (hs : Linked group.servers heap.serverItem ss)
    (hw : Linked group.webcaches heap.webcacheItem ws)
    (hsize : body.length + 12 * ss.length + 4 * ws.length < 65000) :
    ∃ m', wccpAddAssignmentInfoComponent heap localIp group m = .ok m' ∧
      Draft type (body ++ componentBytes 6 (assignmentContent localIp group.changeNumber
        (ss.map heap.server) (ws.map heap.webcache))) m' := by
  -- the length is set after the key
  have hfront :=
    (((h.start 6).setLe32 localIp.toNat rfl).setBe32 group.changeNumber.toNat rfl).setLength 8
  obtain ⟨m₁, m₂, hm₁, hm₂, hbuckets, hlists⟩ := hfront.lists (by simp)
    (routerAssignmentElement_writes group.changeNumber) hs hw
    (k := (wccpHeaderBytes type body.length ++ body).length + 12) (by simp)
    (by simp [routerAssignmentElement]; omega)
  have hlength := length_assignmentContent localIp group.changeNumber (ss.map heap.server)
    (ws.map heap.webcache)
  rw [List.length_map, List.length_map] at hlength
  have hall := (hlists.fill 256 hbuckets).grow (by
    simp only [assignmentContent, List.length_append, List.length_replicate] at hlength
    simp only [List.nil_append, List.length_append]
    omega) 256
  have hsum : ∀ l : List UInt8, l.length + 256 = (l ++ List.replicate 256 0).length := fun l => by
    rw [List.length_append, List.length_replicate]
  rw [hsum] at hall
  refine ⟨_, ?_, Draft.close hall (by omega)⟩
  unfold wccpAddAssignmentInfoComponent
  rw [h.getWccpMessageLength_eq (by omega)]
  exact bind_eq_ok.2 ⟨m₁, hm₁, bind_eq_ok.2 ⟨m₂, hm₂, rfl⟩⟩

end Lists

end Opennop
