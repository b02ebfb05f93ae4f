import Opennop.Wccp.Reached

/-!
# The ID of a service group on the wire

The ID has one byte, but both directions put it through a 16-bit conversion. On a little-endian host
that moves the byte into the upper half, and the lower half, zero, is what is kept: a group is
announced as group 0, and a message for any group is taken for group 0.
-/

namespace Opennop

open Mem

/-! ## The conversion -/

theorem ofNat_htons (id : UInt8) : UInt8.ofNat (htons id.toNat) = 0 := by
  have hid := id.toNat_lt
  have hswapped : htons id.toNat = id.toNat * 256 := by
    unfold htons
    omega
  rw [hswapped]
  apply UInt8.toNat_inj.1
  simp

theorem serviceId_wccpAddServiceComponent {A B : Type} (group : WccpServiceGroup A B) (buf : Mem) :
    wccpAddServiceComponent group buf (getWccpMessageLength buf + 5) = 0 := by
  have hbehind : 8 ≤ getWccpMessageLength buf := Nat.le_add_left ..
  unfold wccpAddServiceComponent updateWccpMessageLength
  generalize getWccpMessageLength buf = component at hbehind
  rw [setBe16_out _ _ (by omega), setBe32_out _ _ (by omega), set_ne _ _ (by omega),
    set_ne _ _ (by omega), set_self, ofNat_htons]

/-! ## Sent and received -/

namespace WccpState

/-- The group is `v`, wherever its items are. -/
def Shows (st : WccpState) (g : Nat) (v : GroupView) : Prop :=
  ∃ ss ws, Linked (st.group g).servers st.heap.serverItem (ss g) ∧
    Linked (st.group g).webcaches st.heap.webcacheItem (ws g) ∧ v = st.view ss ws g

def KnowsServer (st : WccpState) (g : Nat) (ip : UInt32) : Prop :=
  ∃ a, st.findWccpServer g ip = .ok (some a)

def behind (buf : Mem) (component : Nat) : Nat := component + buf.be16 (component + 2) + 4

/-- A message with the ID of the group, from one of its routers, is applied to the group and to no
other. -/
def Receives (st : WccpState) (g : Nat) : Prop :=
  ∀ buf component, buf (component + 5) = (st.group g).groupId →
    st.KnowsServer g (UInt32.ofNat (buf.le32 (behind buf component + 4))) →
    ∃ st', st.processWccpServiceComponent buf component = .ok st' ∧
      st.processWccpRouterIdComponent g buf (behind buf component) = .ok st' ∧
      ∀ g', st.Listed g' → g' ≠ g → ∀ v, st.Shows g' v → st'.Shows g' v

/-- The ID of a group survives in both directions. -/
structure KeepsIdentity (st : WccpState) (g : Nat) : Prop where
  sent : ∀ buf, wccpAddServiceComponent (st.group g) buf (getWccpMessageLength buf + 5) =
    (st.group g).groupId
  received : st.Receives g

variable {st st' : WccpState} {gs : List Nat} {ss ws : Nat → List Nat} {g : Nat}

theorem Holds.shows_iff (h : Holds st gs ss ws) (hg : g ∈ gs) (v : GroupView) :
    st.Shows g v ↔ v = st.view ss ws g := by
  have hservers := h.servers.linked g hg
  have hwebcaches := h.webcaches.linked g hg
  refine ⟨?_, fun hv => ⟨ss, ws, hservers, hwebcaches, hv⟩⟩
  rintro ⟨ss', ws', hss', hws', rfl⟩
  unfold view
  rw [hss'.list.forward.unique hservers.list.forward,
    hws'.list.forward.unique hwebcaches.list.forward]

theorem Holds.receives_zero (h : Holds st gs ss ws) (hg : g ∈ gs)
    (hzero : (st.group g).groupId = 0) :
    st.Receives g := by
  intro buf component hid _
  obtain ⟨st', ws', hst', hchanged⟩ := h.processWccpRouterIdComponent hg buf (behind buf component)
  have hfind : st.findWccpServiceGroup 0 = .ok (some g) := hzero ▸ h.findWccpServiceGroup_groupId hg
  refine ⟨st', ?_, hst', fun g' hlisted hne v hv => ?_⟩
  · rw [WccpState.processWccpServiceComponent, hid, hzero, ofNat_htons, hfind, ok_bind]
    exact hst'
  · have hg' := h.listed_iff.1 hlisted
    rw [h.shows_iff hg'] at hv
    rw [hchanged.holds.shows_iff hg', hchanged.others g' hg' hne]
    exact hv

/-- **The only group whose ID survives is group 0.** -/
theorem keepsIdentity_iff {inetPton : Token → Option UInt32} (hr : st.Reached inetPton)
    (hg : st.Listed g) :
    st.KeepsIdentity g ↔ (st.group g).groupId = 0 := by
  obtain ⟨gs, ss, ws, h⟩ := hr.holds
  refine ⟨fun hkeeps => ?_, fun hzero => ⟨fun buf => ?_, h.receives_zero (h.listed_iff.1 hg) hzero⟩⟩
  · rw [← hkeeps.sent fun _ => 0, serviceId_wccpAddServiceComponent]
  · rw [serviceId_wccpAddServiceComponent, hzero]

/-- Group 0 has a server and its ID survives; that of the other group does not. -/
theorem keepsIdentity_twoGroups :
    twoGroups.KeepsIdentity 0 ∧ twoGroups.KnowsServer 0 0x0900000a ∧
      ¬ twoGroups.KeepsIdentity 1 := by
  obtain ⟨hzero, hfive⟩ := listed_twoGroups
  refine ⟨(keepsIdentity_iff reached_twoGroups hzero).2 (by decide +kernel),
    ⟨0, by decide +kernel⟩, ?_⟩
  rw [keepsIdentity_iff reached_twoGroups hfive]
  decide +kernel

/-- The service, router ID and router view components of a message for group 5 from the router
10.0.0.9, which gives itself the ID 7. -/
def messageForFive : Mem := ofList ([0, 1, 0, 24, 0, 5] ++ List.replicate 22 0 ++
  [0, 2, 0, 12, 10, 0, 0, 9, 0, 0, 0, 7, 0, 0, 0, 0])

/-- A group with another ID is announced as group 0, and a message for it does not arrive. -/
theorem keepsIdentity_groupFive_fails :
    groupFiveServer.Reached inetPton ∧ groupFiveServer.Listed 0 ∧
      wccpAddServiceComponent (groupFiveServer.group 0) (fun _ => 0) 13 = 0 ∧
        (groupFiveServer.group 0).groupId = 5 ∧
      ¬ groupFiveServer.Receives 0 := by
  refine ⟨reached_groupFiveServer, listed_groupFiveServer,
    serviceId_wccpAddServiceComponent _ fun _ => 0, by decide +kernel, fun hreceives => ?_⟩
  obtain ⟨st', hservice, hrouter, -⟩ :=
    hreceives messageForFive 0 (by decide +kernel) ⟨0, by decide +kernel⟩
  have hkept : (groupFiveServer.processWccpServiceComponent messageForFive 0).map
      (fun st => (st.heap.server 0).routerId) = .ok 0 := by decide +kernel
  have hrouterId :
    (groupFiveServer.processWccpRouterIdComponent 0 messageForFive (behind messageForFive 0)).map
      (fun st => (st.heap.server 0).routerId) = .ok 7 := by decide +kernel
  rw [hservice] at hkept
  rw [hrouter] at hrouterId
  exact absurd (Except.ok.inj (hkept.symm.trans hrouterId)) (by decide)

end WccpState

end Opennop
