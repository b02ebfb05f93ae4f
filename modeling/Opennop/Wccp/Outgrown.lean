import Opennop.Lib.Overlay
import Opennop.Wccp.Reached
import Opennop.Wccp.WellFormed

/-!
# Messages that outgrow their buffer

`wccp_send_message` has a buffer of 1024 bytes on the stack, and the functions that fill it do not
know its size. With few servers and web-caches they write below its end; with more of them the last
byte of a message is behind it. The lists grow by `server` commands and by I_SEE_YOU messages,
without a bound.
-/

namespace Opennop

open Mem

/-- `wccp_send_message` without `send`, on a buffer that is the beginning of `buf`. -/
def buildWccpMessage {A B : Type} (heap : WccpHeap A B) (localIp : UInt32)
    (group : WccpServiceGroup A B) (messagetype : WccpMsgType) (buf : Mem) : Exec Mem :=
  match messagetype with
  | .hereIAm => do
    let buf := wccpAddHereIAmHeader buf
    let buf := wccpAddSecurityComponent buf
    let buf := wccpAddServiceComponent group buf
    let buf := wccpAddWebcacheIdComponent localIp buf
    let buf ← wccpAddWebcacheViewComponent heap group buf
    return wccpAddCapabilityInfo buf
  | .redirectAssign => do
    let buf := wccpAddRedirectAssignHeader buf
    let buf := wccpAddSecurityComponent buf
    let buf := wccpAddServiceComponent group buf
    wccpAddAssignmentInfoComponent heap localIp group buf
  | .iSeeYou | .removalQuery => .ok buf

theorem wccpSendMessage_of_built {A B : Type} (heap : WccpHeap A B) (localIp : UInt32)
    (group : WccpServiceGroup A B) {type : WccpMsgType}
    (htype : type = .hereIAm ∨ type = .redirectAssign) :
    wccpSendMessage heap localIp group type =
      (buildWccpMessage heap localIp group type fun _ => 0) >>= fun buf =>
        .ok (some (buf.read 0 (buf.be16 6 + 8))) := by
  obtain rfl | rfl := htype
  · unfold wccpSendMessage buildWccpMessage
    dsimp only
    cases wccpAddWebcacheViewComponent heap group _ <;> rfl
  · rfl

/-- The length fields are the lengths, and not only modulo 2^16. -/
def ExactLengths (n k : Nat) (buf : Mem) : WccpMsgType → Prop
  | .hereIAm => buf.be16 94 = 12 + 8 * n + 4 * k ∧ buf.be16 6 = 120 + 8 * n + 4 * k
  | .redirectAssign => buf.be16 46 = 272 + 12 * n + 4 * k ∧ buf.be16 6 = 312 + 12 * n + 4 * k
  | .iSeeYou | .removalQuery => True

/-- Whatever is on the stack behind the zeroed buffer stays there, and no length wraps. -/
def FitsBuffer {A B : Type} (heap : WccpHeap A B) (localIp : UInt32) (group : WccpServiceGroup A B)
    (type : WccpMsgType) : Prop :=
  ∀ stack : Mem, (∀ i < 1024, stack i = 0) →
    ∃ buf, buildWccpMessage heap localIp group type stack = .ok buf ∧
      (∀ i, 1024 ≤ i → buf i = stack i) ∧
        ExactLengths group.servers.count group.webcaches.count buf type

/-! ## Components of a fixed size -/

section Fixed

variable {A B : Type} {m s : Mem} {D : Nat → Bool} {bound : Nat}

theorem updateWccpMessageLength_overlay (h : Behind D bound) (hbound : 8 ≤ bound) (length : Nat) :
    updateWccpMessageLength (m.overlay D s) length =
      (updateWccpMessageLength m length).overlay D s := by
  unfold updateWccpMessageLength
  rw [be16_overlay h hbound, setBe16_overlay h hbound]

theorem growComponent_overlay (h : Behind D bound) {component : Nat}
    (hbound : component + 4 ≤ bound) (v : Nat) :
    growComponent (m.overlay D s) component v = (growComponent m component v).overlay D s := by
  unfold growComponent
  rw [be16_overlay h hbound, setBe16_overlay h hbound]

theorem getWccpMessageLength_overlay (h : Behind D bound) (hbound : 8 ≤ bound) :
    getWccpMessageLength (m.overlay D s) = getWccpMessageLength m := by
  unfold getWccpMessageLength
  rw [be16_overlay h hbound]

theorem wccpAddHeader_overlay (h : Behind D bound) (hbound : 8 ≤ bound) (type : WccpMsgType) :
    wccpAddHeader type (m.overlay D s) = (wccpAddHeader type m).overlay D s := by
  unfold wccpAddHeader
  dsimp only
  rw [setBe32_overlay h (by omega), setBe16_overlay h (by omega), setBe16_overlay h (by omega)]

theorem wccpAddSecurityComponent_overlay (h : Behind D bound)
    (hbound : getWccpMessageLength m + 8 ≤ bound) :
    wccpAddSecurityComponent (m.overlay D s) = (wccpAddSecurityComponent m).overlay D s := by
  have hheader : 8 ≤ getWccpMessageLength m := Nat.le_add_left ..
  unfold wccpAddSecurityComponent
  rw [getWccpMessageLength_overlay h (by omega)]
  dsimp only
  rw [setBe16_overlay h (by omega), setBe16_overlay h (by omega), setBe32_overlay h (by omega),
    be16_overlay h (by omega), updateWccpMessageLength_overlay h (by omega)]

theorem wccpAddServiceComponent_overlay (h : Behind D bound) (group : WccpServiceGroup A B)
    (hbound : getWccpMessageLength m + 12 ≤ bound) :
    wccpAddServiceComponent group (m.overlay D s) =
      (wccpAddServiceComponent group m).overlay D s := by
  have hheader : 8 ≤ getWccpMessageLength m := Nat.le_add_left ..
  unfold wccpAddServiceComponent
  rw [getWccpMessageLength_overlay h (by omega)]
  dsimp only
  rw [setBe16_overlay h (by omega), setBe16_overlay h (by omega), set_overlay h (by omega),
    set_overlay h (by omega), set_overlay h (by omega), set_overlay h (by omega),
      setBe32_overlay h (by omega), be16_overlay h (by omega),
    updateWccpMessageLength_overlay h (by omega)]

theorem wccpAddWebcacheIdComponent_overlay (h : Behind D bound) (localIp : UInt32)
    (hbound : getWccpMessageLength m + 48 ≤ bound) :
    wccpAddWebcacheIdComponent localIp (m.overlay D s) =
      (wccpAddWebcacheIdComponent localIp m).overlay D s := by
  have hheader : 8 ≤ getWccpMessageLength m := Nat.le_add_left ..
  unfold wccpAddWebcacheIdComponent
  rw [getWccpMessageLength_overlay h (by omega)]
  dsimp only
  rw [setBe16_overlay h (by omega), setBe16_overlay h (by omega), setLe32_overlay h (by omega),
    setBe16_overlay h (by omega), setBe16_overlay h (by omega), setBe16_overlay h (by omega),
      be16_overlay h (by omega),
    updateWccpMessageLength_overlay h (by omega)]

theorem wccpAddCapabilityElement_overlay (h : Behind D bound) {component : Nat} (type value : Nat)
    (hbound : component + m.be16 (component + 2) + 12 ≤ bound) :
    wccpAddCapabilityElement (m.overlay D s) component type value =
      (wccpAddCapabilityElement m component type value).overlay D s := by
  unfold wccpAddCapabilityElement
  rw [be16_overlay h (by omega)]
  dsimp only
  rw [setBe16_overlay h (by omega), setBe16_overlay h (by omega), setBe32_overlay h (by omega),
    growComponent_overlay h (by omega)]

theorem be16_wccpAddCapabilityElement (component type value : Nat) :
    (wccpAddCapabilityElement m component type value).be16 (component + 2) =
      (m.be16 (component + 2) + 8) % 65536 := by
  unfold wccpAddCapabilityElement growComponent
  dsimp only
  rw [be16_setBe16]
  generalize hused : m.be16 (component + 2) = used
  rw [← hused, be16_congr fun i hi₁ hi₂ => ?_]
  rw [setBe32_out _ _ (by omega), setBe16_out _ _ (by omega), setBe16_out _ _ (by omega)]

theorem wccpAddCapabilityInfo_overlay (h : Behind D bound)
    (hbound : getWccpMessageLength m + 20 ≤ bound) :
    wccpAddCapabilityInfo (m.overlay D s) = (wccpAddCapabilityInfo m).overlay D s := by
  have hheader : 8 ≤ getWccpMessageLength m := Nat.le_add_left ..
  unfold wccpAddCapabilityInfo
  rw [getWccpMessageLength_overlay h (by omega)]
  dsimp only
  rw [setBe16_overlay h (by omega), setBe16_overlay h (by omega),
    wccpAddCapabilityElement_overlay h _ _ (by rw [be16_setBe16]; omega),
    wccpAddCapabilityElement_overlay h _ _
      (by rw [be16_wccpAddCapabilityElement, be16_setBe16]; omega),
    be16_overlay h (by omega), updateWccpMessageLength_overlay h (by omega)]

end Fixed

/-! ## Lists -/

/-- An element is stored where it is put, and nowhere else. -/
def WccpElement.Stores {α : Type} (element : WccpElement α) : Prop :=
  ∀ {m s : Mem} {D : Nat → Bool} {bound k : Nat} (x : α), Behind D bound →
    k + element.size ≤ bound → element.put (m.overlay D s) k x = (element.put m k x).overlay D s

theorem routerIdElement_stores : routerIdElement.Stores := by
  intro m s D bound k x h hk
  simp only [routerIdElement] at hk ⊢
  rw [setLe32_overlay h (by omega), setBe32_overlay h (by omega)]

theorem routerAssignmentElement_stores (changeNumber : UInt32) :
    (routerAssignmentElement changeNumber).Stores := by
  intro m s D bound k x h hk
  simp only [routerAssignmentElement] at hk ⊢
  rw [setLe32_overlay h (by omega), setBe32_overlay h (by omega), setBe32_overlay h (by omega)]

theorem webcacheElement_stores : webcacheElement.Stores :=
  fun _ h hk => setLe32_overlay h hk _

section Elements

variable {C α : Type} {item : C → ListItem C} {element : WccpElement α} {s : Mem} {D : Nat → Bool}
  {component : Nat} {l : List C} {head : ListHead C}

theorem loop_elementPass_overlay (value : C → α) (he : element.Stores) {bound : Nat}
    (h : Behind D bound) :
    ∀ (start : Option C) (position : Nat) (m : Mem), Seg (fun a => (item a).next) start l none →
      component + 4 ≤ position → position + l.length * element.size ≤ bound →
      ∃ m', loop (elementPass item value element component) (l.length + 1)
        (start, position, m) = .ok m' ∧
          loop (elementPass item value element component) (l.length + 1)
            (start, position, m.overlay D s) = .ok (m'.overlay D s) := by
  induction l with
  | nil =>
    intro start position m hseg _ _
    obtain rfl : start = none := hseg
    exact ⟨m, rfl, rfl⟩
  | cons a l ih =>
    intro start position m hseg hposition hbound
    obtain ⟨rfl, htail⟩ := Seg.cons_iff.1 hseg
    rw [List.length_cons, Nat.succ_mul] at hbound
    obtain ⟨m', hm', hoverlay⟩ := ih _ (position + element.size)
      (growComponent (element.put m position (value a)) component element.size) htail
        (by omega) (by omega)
    refine ⟨m', ?_, ?_⟩
    · rw [List.length_cons, loop_again rfl]
      exact hm'
    · rw [List.length_cons, loop_again rfl, he _ h (by omega),
        growComponent_overlay h (by omega)]
      exact hoverlay

theorem addElements_overlay (value : C → α) (he : element.Stores) {bound : Nat} (h : Behind D bound)
    (hl : Linked head item l) (component position : Nat) (m : Mem)
    (hposition : component + 4 ≤ position)
    (hbound : position + 4 + l.length * element.size ≤ bound) :
    ∃ m', addElements head item value element component position m = .ok m' ∧
      addElements head item value element component position (m.overlay D s) =
        .ok (m'.overlay D s) := by
  unfold addElements
  dsimp only
  rw [hl.count, setBe32_overlay h (by omega), growComponent_overlay h (by omega)]
  exact loop_elementPass_overlay value he h _ _ _ hl.list.forward (by omega) hbound

end Elements

/-! ## Components with lists -/

section Lists

variable {A B : Type} {heap : WccpHeap A B} {group : WccpServiceGroup A B} {ss : List A}
  {ws : List B} {m s : Mem} {D : Nat → Bool}

theorem addLists_overlay {element : WccpElement WccpServer} {bytes : WccpServer → List UInt8}
    {bound : Nat} (he : element.Stores) (hb : element.Writes bytes) (h : Behind D bound)
    (hs : Linked group.servers heap.serverItem ss)
    (hw : Linked group.webcaches heap.webcacheItem ws) (component position : Nat) (m : Mem)
    (hposition : component + 4 ≤ position)
    (hbound : position + 8 + ss.length * element.size + ws.length * 4 ≤ bound) :
    ∃ m₁ m₂, addElements group.servers heap.serverItem heap.server element component
      position m = .ok m₁ ∧ addElements group.servers heap.serverItem heap.server element component
        position (m.overlay D s) = .ok (m₁.overlay D s) ∧
      addElements group.webcaches heap.webcacheItem heap.webcache webcacheElement component
        (behindElements group.servers element position) m₁ = .ok m₂ ∧
      addElements group.webcaches heap.webcacheItem heap.webcache webcacheElement component
        (behindElements group.servers element position) (m₁.overlay D s) =
          .ok (m₂.overlay D s) := by
  have hbehind := behindElements_eq heap.server hb hs position
  rw [hb.length_listBytes, List.length_map] at hbehind
  obtain ⟨m₁, hm₁, hoverlay₁⟩ :=
    addElements_overlay heap.server he h hs component position m hposition (by omega)
  obtain ⟨m₂, hm₂, hoverlay₂⟩ :=
    addElements_overlay heap.webcache webcacheElement_stores h hw component
    (behindElements group.servers element position) m₁ (by omega) (by
      rw [hbehind]
      simp only [webcacheElement]
      omega)
  exact ⟨m₁, m₂, hm₁, hoverlay₁, hm₂, hoverlay₂⟩

theorem wccpAddWebcacheViewComponent_overlay {bound : Nat} (h : Behind D bound)
    (hs : Linked group.servers heap.serverItem ss)
    (hw : Linked group.webcaches heap.webcacheItem ws)
    (hbound : getWccpMessageLength m + 16 + 8 * ss.length + 4 * ws.length ≤ bound) :
    ∃ m', wccpAddWebcacheViewComponent heap group m = .ok m' ∧
      wccpAddWebcacheViewComponent heap group (m.overlay D s) = .ok (m'.overlay D s) := by
  have hheader : 8 ≤ getWccpMessageLength m := Nat.le_add_left ..
  unfold wccpAddWebcacheViewComponent
  rw [getWccpMessageLength_overlay h (by omega)]
  generalize getWccpMessageLength m = component at *
  dsimp only
  rw [setBe16_overlay h (by omega), setBe16_overlay h (by omega), setBe32_overlay h (by omega)]
  obtain ⟨m₁, m₂, hm₁, hoverlay₁, hm₂, hoverlay₂⟩ :=
    addLists_overlay (s := s) routerIdElement_stores
    routerIdElement_writes h hs hw component (component + 8)
    (((m.setBe16 component 5).setBe16 (component + 2) 4).setBe32 (component + 4)
      group.changeNumber.toNat)
    (by omega) (by simp only [routerIdElement]; omega)
  refine ⟨updateWccpMessageLength m₂ (m₂.be16 (component + 2)), ?_, ?_⟩
  · exact bind_eq_ok.2 ⟨m₁, hm₁, bind_eq_ok.2 ⟨m₂, hm₂, rfl⟩⟩
  · refine bind_eq_ok.2 ⟨_, hoverlay₁, bind_eq_ok.2 ⟨_, hoverlay₂, ?_⟩⟩
    rw [be16_overlay h (by omega), updateWccpMessageLength_overlay h (by omega)]
    rfl

/-- The buckets, and the lengths with them. -/
def addBuckets (component buckets : Nat) (buf : Mem) : Mem :=
  let buf := buf.fill buckets 256 0
  let buf := growComponent buf component 256
  updateWccpMessageLength buf (buf.be16 (component + 2))

/-- The lists of the assignment, which are the same with and without an overlay behind them, and its
buckets. -/
theorem wccpAddAssignmentInfoComponent_eq {bound : Nat} (h : Behind D bound) (localIp : UInt32)
    (hs : Linked group.servers heap.serverItem ss)
    (hw : Linked group.webcaches heap.webcacheItem ws)
    (hbound : getWccpMessageLength m + 20 + 12 * ss.length + 4 * ws.length ≤ bound) :
    ∃ m' : Mem, wccpAddAssignmentInfoComponent heap localIp group m =
        .ok (addBuckets (getWccpMessageLength m)
          (getWccpMessageLength m + 20 + 12 * ss.length + 4 * ws.length) m') ∧
      wccpAddAssignmentInfoComponent heap localIp group (m.overlay D s) =
        .ok (addBuckets (getWccpMessageLength m)
          (getWccpMessageLength m + 20 + 12 * ss.length + 4 * ws.length) (m'.overlay D s)) := by
  have hheader : 8 ≤ getWccpMessageLength m := Nat.le_add_left ..
  unfold wccpAddAssignmentInfoComponent
  rw [getWccpMessageLength_overlay h (by omega)]
  generalize getWccpMessageLength m = component at *
  dsimp only
  rw [setBe16_overlay h (by omega), setLe32_overlay h (by omega), setBe32_overlay h (by omega),
    setBe16_overlay h (by omega)]
  obtain ⟨m₁, m₂, hm₁, hoverlay₁, hm₂, hoverlay₂⟩ := addLists_overlay (s := s)
    (routerAssignmentElement_stores group.changeNumber)
      (routerAssignmentElement_writes group.changeNumber) h hs hw
    component (component + 12)
      ((((m.setBe16 component 6).setLe32 (component + 4) localIp.toNat).setBe32
      (component + 8) group.changeNumber.toNat).setBe16 (component + 2) 8) (by omega)
    (by simp only [routerAssignmentElement]; omega)
  have hbuckets : behindElements group.webcaches webcacheElement
      (behindElements group.servers (routerAssignmentElement group.changeNumber) (component + 12)) =
        component + 20 + 12 * ss.length + 4 * ws.length := by
    rw [behindElements_eq heap.webcache webcacheElement_writes hw,
      webcacheElement_writes.length_listBytes,
        behindElements_eq heap.server (routerAssignmentElement_writes group.changeNumber) hs,
      (routerAssignmentElement_writes group.changeNumber).length_listBytes, List.length_map,
        List.length_map]
    simp only [routerAssignmentElement, webcacheElement]
    omega
  rw [hbuckets]
  exact ⟨m₂, bind_eq_ok.2 ⟨m₁, hm₁, bind_eq_ok.2 ⟨m₂, hm₂, rfl⟩⟩,
    bind_eq_ok.2 ⟨_, hoverlay₁, bind_eq_ok.2 ⟨_, hoverlay₂, rfl⟩⟩⟩

theorem wccpAddAssignmentInfoComponent_overlay {bound : Nat} (h : Behind D bound) (localIp : UInt32)
    (hs : Linked group.servers heap.serverItem ss)
    (hw : Linked group.webcaches heap.webcacheItem ws)
    (hbound : getWccpMessageLength m + 276 + 12 * ss.length + 4 * ws.length ≤ bound) :
    ∃ m', wccpAddAssignmentInfoComponent heap localIp group m = .ok m' ∧
      wccpAddAssignmentInfoComponent heap localIp group (m.overlay D s) = .ok (m'.overlay D s) := by
  obtain ⟨m', hm', hoverlay⟩ :=
    wccpAddAssignmentInfoComponent_eq (m := m) (s := s) h localIp hs hw (by omega)
  refine ⟨_, hm', ?_⟩
  rw [hoverlay]
  unfold addBuckets
  dsimp only
  rw [fill_overlay h (by omega), growComponent_overlay h (by omega), be16_overlay h (by omega),
    updateWccpMessageLength_overlay h (by omega)]

theorem wccpAddAssignmentInfoComponent_overlay_last {i : Nat} (h : Only D i) (localIp : UInt32)
    (hs : Linked group.servers heap.serverItem ss)
    (hw : Linked group.webcaches heap.webcacheItem ws)
    (hlast : getWccpMessageLength m + 276 + 12 * ss.length + 4 * ws.length = i + 1) :
    wccpAddAssignmentInfoComponent heap localIp group (m.overlay D s) =
      wccpAddAssignmentInfoComponent heap localIp group m := by
  obtain ⟨m', hm', hoverlay⟩ :=
    wccpAddAssignmentInfoComponent_eq (m := m) (s := s) h.behind localIp hs hw (by omega)
  rw [hm', hoverlay]
  unfold addBuckets
  rw [fill_overlay_last h (by omega) (by decide)]

end Lists

/-! ## Messages -/

section Messages

variable {A B : Type} {heap : WccpHeap A B} (localIp : UInt32) {group : WccpServiceGroup A B}
  {ss : List A} {ws : List B} {D : Nat → Bool} {s : Mem}

/-- The components of HERE_I_AM in front of the view. -/
def hereIAmFront (group : WccpServiceGroup A B) (buf : Mem) : Mem :=
  wccpAddWebcacheIdComponent localIp (wccpAddServiceComponent group (wccpAddSecurityComponent
    (wccpAddHereIAmHeader buf)))

/-- The components of REDIRECT_ASSIGN in front of the assignment. -/
def redirectAssignFront (group : WccpServiceGroup A B) (buf : Mem) : Mem :=
  wccpAddServiceComponent group (wccpAddSecurityComponent (wccpAddRedirectAssignHeader buf))

theorem draft_service (type : WccpMsgType) (group : WccpServiceGroup A B) :
    ∃ body, body.length = 36 ∧ Draft type body
      (wccpAddServiceComponent group (wccpAddSecurityComponent (wccpAddHeader type fun _ => 0))) :=
  ⟨_, by simp, ((Draft.header type).security (by simp)).service group (by simp)⟩

theorem draft_hereIAmFront (group : WccpServiceGroup A B) :
    ∃ body, body.length = 84 ∧ Draft .hereIAm body (hereIAmFront localIp group fun _ => 0) := by
  obtain ⟨body, hlength, hdraft⟩ := draft_service .hereIAm group
  exact ⟨_, by simp [hlength], hdraft.webcacheId localIp (by omega)⟩

theorem Draft.position {type : WccpMsgType} {body : List UInt8} {m : Mem} (h : Draft type body m)
    (hbody : body.length < 65536) : getWccpMessageLength m = 8 + body.length := by
  rw [h.getWccpMessageLength_eq hbody, List.length_append, length_wccpHeaderBytes]

theorem service_overlay {bound : Nat} (h : Behind D bound) (hbound : 28 ≤ bound)
    (type : WccpMsgType) (group : WccpServiceGroup A B) :
    wccpAddServiceComponent group
      (wccpAddSecurityComponent (wccpAddHeader type (overlay (fun _ => 0) D s))) =
      (wccpAddServiceComponent group
      (wccpAddSecurityComponent (wccpAddHeader type fun _ => 0))).overlay D s := by
  have hheader := (Draft.header type).position (by simp)
  have hsecurity := ((Draft.header type).security (by simp)).position (by simp)
  simp only [List.nil_append, length_componentBytes, length_securityContent, List.length_nil]
    at hheader hsecurity
  rw [wccpAddHeader_overlay h (by omega), wccpAddSecurityComponent_overlay h (by omega),
    wccpAddServiceComponent_overlay h group (by omega)]

theorem hereIAmFront_overlay {bound : Nat} (h : Behind D bound) (hbound : 92 ≤ bound) :
    hereIAmFront localIp group (overlay (fun _ => 0) D s) =
      (hereIAmFront localIp group fun _ => 0).overlay D s := by
  obtain ⟨body, hlength, hdraft⟩ := draft_service .hereIAm group
  have hposition := hdraft.position (by omega)
  unfold hereIAmFront wccpAddHereIAmHeader
  rw [service_overlay h (by omega), wccpAddWebcacheIdComponent_overlay h localIp (by omega)]

theorem Draft.be16_component {type : WccpMsgType} {before rest after : List UInt8} {component : Nat}
    {m : Mem} (h : Draft type (before ++ componentBytes component rest ++ after) m)
    (hrest : rest.length < 65536) :
    m.be16 (8 + before.length + 2) = rest.length := by
  have hheld : m.Holds (8 + before.length + 2) (bytesBe16 rest.length) := by
    refine Filled.holds
      (a := wccpHeaderBytes type (before ++ componentBytes component rest ++ after).length ++
      before ++ bytesBe16 component) (b := rest ++ after) ?_ (by simp; omega)
    unfold Draft at h
    simpa only [componentBytes, List.append_assoc] using h
  exact be16_of_holds hheld hrest

variable (hs : Linked group.servers heap.serverItem ss)
  (hw : Linked group.webcaches heap.webcacheItem ws)

include hs hw

theorem hereIAm_overlay {bound : Nat} (h : Behind D bound)
    (hbound : 128 + 8 * ss.length + 4 * ws.length ≤ bound)
    (hsize : 8 * ss.length + 4 * ws.length < 60000) :
    ∃ m, buildWccpMessage heap localIp group .hereIAm (fun _ => 0) = .ok m ∧
      buildWccpMessage heap localIp group .hereIAm (overlay (fun _ => 0) D s) =
        .ok (m.overlay D s) ∧
      m.be16 94 = 12 + 8 * ss.length + 4 * ws.length ∧
        m.be16 6 = 120 + 8 * ss.length + 4 * ws.length := by
  obtain ⟨body, hlength, hfront⟩ := draft_hereIAmFront localIp group
  have hposition := hfront.position (by omega)
  obtain ⟨m', hm', hview⟩ := hfront.webcacheView hs hw (by omega)
  obtain ⟨m₁, hm₁, hoverlay⟩ := wccpAddWebcacheViewComponent_overlay (s := s) h hs hw
    (m := hereIAmFront localIp group fun _ => 0) (by omega)
  obtain rfl := Except.ok.inj (hm'.symm.trans hm₁)
  have hcontent := length_viewContent group.changeNumber (ss.map heap.server) (ws.map heap.webcache)
  rw [List.length_map, List.length_map] at hcontent
  have hcapability := hview.capability (by simp [hlength]; omega)
  have hend := hview.position (by simp [hlength]; omega)
  rw [List.length_append, length_componentBytes, hcontent, hlength] at hend
  refine ⟨wccpAddCapabilityInfo m', bind_eq_ok.2 ⟨m', hm', rfl⟩, ?_, ?_, ?_⟩
  · refine bind_eq_ok.2 ⟨m'.overlay D s, ?_, ?_⟩
    · rw [← hoverlay, ← hereIAmFront_overlay localIp h (by omega)]
      rfl
    · rw [wccpAddCapabilityInfo_overlay h (by omega)]
      rfl
  · have hfield := hcapability.be16_component (by omega)
    rwa [hlength, hcontent] at hfield
  · rw [hcapability.be16_length (by simp [hlength]; omega)]
    simp only [List.length_append, length_componentBytes, hlength, hcontent]
    simp
    omega

theorem redirectAssign_overlay {bound : Nat} (h : Behind D bound)
    (hbound : 320 + 12 * ss.length + 4 * ws.length ≤ bound)
    (hsize : 12 * ss.length + 4 * ws.length < 60000) :
    ∃ m, buildWccpMessage heap localIp group .redirectAssign (fun _ => 0) = .ok m ∧
      buildWccpMessage heap localIp group .redirectAssign (overlay (fun _ => 0) D s) =
        .ok (m.overlay D s) ∧
      m.be16 46 = 272 + 12 * ss.length + 4 * ws.length ∧
        m.be16 6 = 312 + 12 * ss.length + 4 * ws.length := by
  obtain ⟨body, hlength, hfront⟩ := draft_service .redirectAssign group
  have hposition := hfront.position (by omega)
  obtain ⟨m', hm', hassignment⟩ := hfront.assignmentInfo localIp hs hw (by omega)
  obtain ⟨m₁, hm₁, hoverlay⟩ := wccpAddAssignmentInfoComponent_overlay (s := s) h localIp hs hw
    (m := redirectAssignFront group fun _ => 0)
      (by unfold redirectAssignFront wccpAddRedirectAssignHeader; omega)
  obtain rfl := Except.ok.inj (hm'.symm.trans hm₁)
  have hcontent :=
    length_assignmentContent localIp group.changeNumber (ss.map heap.server) (ws.map heap.webcache)
  rw [List.length_map, List.length_map] at hcontent
  refine ⟨m', hm', ?_, ?_, ?_⟩
  · rw [← hoverlay]
    unfold buildWccpMessage redirectAssignFront wccpAddRedirectAssignHeader
    dsimp only
    rw [service_overlay h (by omega)]
  · rw [← List.append_nil (body ++ _)] at hassignment
    have hfield := hassignment.be16_component (by omega)
    rwa [hlength, hcontent] at hfield
  · rw [hassignment.be16_length (by simp [hlength]; omega)]
    simp only [List.length_append, length_componentBytes, hlength, hcontent]
    omega

theorem redirectAssign_overlay_last {i : Nat} (h : Only D i)
    (hi : 320 + 12 * ss.length + 4 * ws.length = i + 1) :
    buildWccpMessage heap localIp group .redirectAssign (overlay (fun _ => 0) D s) =
      buildWccpMessage heap localIp group .redirectAssign fun _ => 0 := by
  obtain ⟨body, hlength, hfront⟩ := draft_service .redirectAssign group
  have hposition := hfront.position (by omega)
  unfold buildWccpMessage wccpAddRedirectAssignHeader
  dsimp only
  rw [service_overlay h.behind (by omega), wccpAddAssignmentInfoComponent_overlay_last h localIp hs
    hw (by omega)]

omit hs hw in
/-- A message that is written over a byte behind the buffer, whatever is there, does not fit. -/
theorem not_fitsBuffer_of_last {type : WccpMsgType} {i : Nat} (hi : 1024 ≤ i)
    (hlast : ∀ (D : Nat → Bool) (s : Mem), Only D i →
      buildWccpMessage heap localIp group type (overlay (fun _ => 0) D s) =
        buildWccpMessage heap localIp group type fun _ => 0) :
          ¬ FitsBuffer heap localIp group type := by
  intro hfits
  have hkept : ∀ b : UInt8, ∃ buf, buildWccpMessage heap localIp group type (fun _ => 0) = .ok buf ∧
      buf i = b := by
    intro b
    let D : Nat → Bool := fun j => j = i
    have hD : Only D i := fun _ => rfl
    obtain ⟨buf, hbuf, hout, -⟩ := hfits (overlay (fun _ => 0) D fun _ => b) fun j hj =>
      overlay_of_lt hD.behind (Nat.lt_of_lt_of_le hj hi)
    refine ⟨buf, by rw [← hlast D _ hD]; exact hbuf, ?_⟩
    rw [hout i hi]
    simp [overlay, D]
  obtain ⟨buf, hbuf, hzero⟩ := hkept 0
  obtain ⟨buf', hbuf', hone⟩ := hkept 1
  obtain rfl := Except.ok.inj (hbuf.symm.trans hbuf')
  rw [hzero] at hone
  exact absurd hone (by decide)

theorem not_fitsBuffer (hsize : 1024 < 320 + 12 * ss.length + 4 * ws.length) :
    ¬ FitsBuffer heap localIp group .redirectAssign :=
  not_fitsBuffer_of_last localIp (i := 319 + 12 * ss.length + 4 * ws.length) (by omega)
    fun D s h => redirectAssign_overlay_last localIp hs hw h (by omega)

theorem fitsBuffer {type : WccpMsgType} (hsize : type.size ss.length ws.length ≤ 1024) :
    FitsBuffer heap localIp group type := by
  intro stack hzero
  let D : Nat → Bool := fun i => 1024 ≤ i
  have hD : Behind D 1024 := fun i hi => decide_eq_false (Nat.not_le.2 hi)
  have hstack : stack = overlay (fun _ => 0) D stack := by
    funext i
    by_cases hi : 1024 ≤ i
    · simp [overlay, D, hi]
    · rw [overlay_of_lt hD (by omega), hzero i (by omega)]
  have hout : ∀ (m : Mem) i, 1024 ≤ i → m.overlay D stack i = stack i :=
    fun m i hi => by simp [overlay, D, hi]
  have hfield : ∀ (m : Mem) k, k + 2 ≤ 1024 → (m.overlay D stack).be16 k = m.be16 k := fun m k hk =>
    be16_overlay hD hk
  cases type with
  | hereIAm =>
    have hsize : 128 + 8 * ss.length + 4 * ws.length ≤ 1024 := hsize
    obtain ⟨m, -, hm, hview, hheader⟩ :=
      hereIAm_overlay (s := stack) localIp hs hw hD hsize (by omega)
    rw [← hstack] at hm
    refine ⟨_, hm, hout m, ?_, ?_⟩
    · rw [hfield m _ (by omega), hs.count, hw.count, hview]
    · rw [hfield m _ (by omega), hs.count, hw.count, hheader]
  | redirectAssign =>
    have hsize : 320 + 12 * ss.length + 4 * ws.length ≤ 1024 := hsize
    obtain ⟨m, -, hm, hassignment, hheader⟩ :=
      redirectAssign_overlay (s := stack) localIp hs hw hD hsize
      (by omega)
    rw [← hstack] at hm
    refine ⟨_, hm, hout m, ?_, ?_⟩
    · rw [hfield m _ (by omega), hs.count, hw.count, hassignment]
    · rw [hfield m _ (by omega), hs.count, hw.count, hheader]
  | iSeeYou => exact ⟨stack, rfl, fun _ _ => rfl, trivial⟩
  | removalQuery => exact ⟨stack, rfl, fun _ _ => rfl, trivial⟩

end Messages

namespace WccpState

variable {st : WccpState} {g : Nat}

/-- **When the messages of a group fit**: REDIRECT_ASSIGN is the longer one. -/
theorem fitsBuffer_iff {inetPton : Token → Option UInt32} (hr : st.Reached inetPton)
    (hg : st.Listed g) (localIp : UInt32) :
    (∀ type, FitsBuffer st.heap localIp (st.group g) type) ↔
      12 * (st.group g).servers.count + 4 * (st.group g).webcaches.count ≤ 704 := by
  obtain ⟨gs, ss, ws, h⟩ := hr.holds
  have hmem := h.listed_iff.1 hg
  have hs := h.servers.linked g hmem
  have hw := h.webcaches.linked g hmem
  rw [hs.count, hw.count]
  refine ⟨fun hfits => ?_, fun hcount type => fitsBuffer localIp hs hw ?_⟩
  · by_contra hcount
    exact not_fitsBuffer localIp hs hw (by omega) (hfits .redirectAssign)
  · cases type <;> simp only [WccpMsgType.size] <;> omega

/-- The group 5 with the servers 10.0.0.1, 10.0.0.2 and so on. -/
def manyServers : Nat → WccpState
  | 0 => groupFive
  | n + 1 => (manyServers n).serve 0 ("10.0.0.".toList ++ Nat.toDigits 10 (n + 1))

theorem reached_manyServers (n : Nat) :
    (manyServers n).Reached inetPton ∧ (manyServers n).Listed 0 := by
  induction n with
  | zero => exact ⟨reached_groupFive inetPton, listed_groupFive⟩
  | succ n ih =>
    obtain ⟨hr, hg⟩ := ih
    refine ⟨hr.serve hg _, ?_⟩
    obtain ⟨gs, ss, ws, h⟩ := hr.holds
    obtain ⟨st', ss', hst', h'⟩ := h.cliWccpServer () (h.listed_iff.1 hg) inetPton
      ["10.0.0.".toList ++ Nat.toDigits 10 (n + 1)]
    unfold manyServers serve
    rw [hst']
    exact h'.listed_iff.2 (h.listed_iff.1 hg)

/-- 58 servers are the most that fit. -/
theorem fitsBuffer_manyServers : (manyServers 58).Reached inetPton ∧ (manyServers 58).Listed 0 ∧
    ((manyServers 58).group 0).servers.count = 58 ∧
      ∀ localIp type, FitsBuffer (manyServers 58).heap localIp ((manyServers 58).group 0) type := by
  obtain ⟨hr, hg⟩ := reached_manyServers 58
  have hcounts : ((manyServers 58).group 0).servers.count = 58 ∧
      ((manyServers 58).group 0).webcaches.count = 0 := by decide +kernel
  refine ⟨hr, hg, hcounts.1, fun localIp => (fitsBuffer_iff hr hg localIp).2 ?_⟩
  rw [hcounts.1, hcounts.2]
  decide

/-- 59 servers, and REDIRECT_ASSIGN is four bytes longer than its buffer. -/
theorem fitsBuffer_manyServers_fails :
    (manyServers 59).Reached inetPton ∧ (manyServers 59).Listed 0 ∧
      ((manyServers 59).group 0).servers.count = 59 ∧
      ((manyServers 59).group 0).webcaches.count = 0 ∧ ∀ localIp,
        ¬ FitsBuffer (manyServers 59).heap localIp ((manyServers 59).group 0) .redirectAssign := by
  obtain ⟨hr, hg⟩ := reached_manyServers 59
  have hcounts : ((manyServers 59).group 0).servers.count = 59 ∧
      ((manyServers 59).group 0).webcaches.count = 0 := by decide +kernel
  refine ⟨hr, hg, hcounts.1, hcounts.2, fun localIp => ?_⟩
  obtain ⟨gs, ss, ws, h⟩ := hr.holds
  have hmem := h.listed_iff.1 hg
  have hs := h.servers.linked 0 hmem
  have hw := h.webcaches.linked 0 hmem
  refine not_fitsBuffer localIp hs hw ?_
  rw [← hs.count, ← hw.count, hcounts.1, hcounts.2]
  decide

end WccpState

end Opennop
