import Opennop.Wccp.Groups

/-!
# What commands and messages make of the groups

`GroupView.routerId` is what a message of a router does to the group it is for, in terms of what the
group is and not of where its items are. Every command and every message keeps the invariant of the
lists, so that it holds in every state that they reach.
-/

namespace Opennop

open Mem

namespace GroupView

/-- One web-cache of a router view. -/
def learn (v : GroupView) (ip : UInt32) : GroupView :=
  { v with webcaches := if ip ∈ v.webcaches then v.webcaches else v.webcaches ++ [ip] }

/-- A router view component: its change number, and the first of its web-caches. -/
def routerView (v : GroupView) (buf : Mem) (component : Nat) : GroupView :=
  let changeNumber := UInt32.ofNat (buf.be32 (component + 4))
  if changeNumber ≠ v.changeNumber then
    let v := { v with changeNumber }
    let numWebcaches := component + 16 + 4 * buf.be32 (component + 16) + 4
    if buf.be32 numWebcaches > 0 then v.learn (UInt32.ofNat (buf.le32 (numWebcaches + 4))) else v
  else v

/-- The ID that a router gives itself. -/
def setRouterId (v : GroupView) (ip id : UInt32) : GroupView :=
  { v with servers := v.servers.map fun s => if s.ipaddress =
  ip then { s with routerId := id } else s }

/-- A router ID component, with the router view component behind it. -/
def routerId (v : GroupView) (buf : Mem) (component : Nat) : GroupView :=
  let ip := UInt32.ofNat (buf.le32 (component + 4))
  if ip ∈ v.servers.map WccpServer.ipaddress then
    (v.setRouterId ip (UInt32.ofNat (buf.be32 (component + 8)))).routerView buf
      (component + buf.be16 (component + 2) + 4)
  else v

theorem learn_learn (v : GroupView) (ip : UInt32) : (v.learn ip).learn ip = v.learn ip := by
  unfold learn
  split <;> simp [*]

end GroupView

namespace WccpState.Holds

variable {st : WccpState} {gs : List Nat} {ss ws : Nat → List Nat} {g : Nat}

/-! ## Messages -/

theorem learnWebcache (h : Holds st gs ss ws) (hg : g ∈ gs) (ip : UInt32) :
    ∃ st' ws', st.learnWebcache g ip = .ok st' ∧
      Changed st st' gs ss ws ss ws' g ((st.view ss ws g).learn ip) := by
  rw [WccpState.learnWebcache, h.findWccpWebcache hg, ok_bind]
  obtain ⟨hfind, hip⟩ | ⟨a, ha, rfl, hfind⟩ := find?_key st.heap.webcache ip (ws g)
  · have hip : ip ∉ (st.view ss ws g).webcaches := hip
    obtain ⟨st', hst', hchanged⟩ := h.insertWebcache hg hip
    refine ⟨st',
      Function.update ws g (ws g ++ [st.webcachesAllocated]), by rw [hfind]; exact hst', ?_⟩
    rw [GroupView.learn, if_neg hip]
    exact hchanged
  · have hip : st.heap.webcache a ∈ (st.view ss ws g).webcaches := List.mem_map_of_mem ha
    refine ⟨st, ws, by rw [hfind]; rfl, ?_⟩
    rw [GroupView.learn, if_pos hip]
    exact h.refl

/-- All passes are about the same element: what the first one did, the others find. -/
theorem learnWebcaches (h : Holds st gs ss ws) (hg : g ∈ gs) (ip : UInt32) (passes : Nat) :
    ∃ st' ws', WccpState.learnWebcaches g ip (passes + 1) st = .ok st' ∧
      Changed st st' gs ss ws ss ws' g ((st.view ss ws g).learn ip) := by
  induction passes generalizing st ws with
  | zero =>
    obtain ⟨st', ws', hst', hchanged⟩ := h.learnWebcache hg ip
    exact ⟨st', ws', by rw [WccpState.learnWebcaches, hst']; rfl, hchanged⟩
  | succ passes ih =>
    obtain ⟨st₁, ws₁, hst₁, hchanged₁⟩ := h.learnWebcache hg ip
    obtain ⟨st₂, ws₂, hst₂, hchanged₂⟩ := ih hchanged₁.holds
    rw [hchanged₁.self, GroupView.learn_learn] at hchanged₂
    refine ⟨st₂, ws₂, ?_, hchanged₁.trans hchanged₂⟩
    rw [WccpState.learnWebcaches, hst₁, ok_bind, hst₂]

theorem processWccpRouterViewComponent (h : Holds st gs ss ws) (hg : g ∈ gs) (buf : Mem)
    (component : Nat) :
    ∃ st' ws', st.processWccpRouterViewComponent g buf component = .ok st' ∧
      Changed st st' gs ss ws ss ws' g ((st.view ss ws g).routerView buf component) := by
  unfold WccpState.processWccpRouterViewComponent GroupView.routerView
  dsimp only
  by_cases hchange : UInt32.ofNat (buf.be32 (component + 4)) ≠ (st.view ss ws g).changeNumber
  · have hnumber := h.setChangeNumber g (UInt32.ofNat (buf.be32 (component + 4)))
    rw [if_pos hchange, if_pos (show _ ≠ (st.group g).changeNumber from hchange)]
    by_cases hk : buf.be32 (component + 16 + 4 * buf.be32 (component + 16) + 4) > 0
    · obtain ⟨passes, hpasses⟩ := Nat.exists_eq_add_one.2 hk
      obtain ⟨st', ws', hst', hlearned⟩ := hnumber.holds.learnWebcaches hg
        (UInt32.ofNat (buf.le32 (component + 16 + 4 * buf.be32 (component + 16) + 4 + 4))) passes
      rw [← hpasses] at hst'
      rw [hnumber.self] at hlearned
      refine ⟨st', ws', by rw [if_pos hk]; exact hst', ?_⟩
      rw [if_pos hk]
      exact hnumber.trans hlearned
    · exact ⟨_, ws, if_neg hk, by rw [if_neg hk]; exact hnumber⟩
  · exact ⟨st, ws, if_neg hchange, by rw [if_neg hchange]; exact h.refl⟩

theorem map_ipaddress (st : WccpState) (ss ws : Nat → List Nat) (g : Nat) :
    (st.view ss ws g).servers.map WccpServer.ipaddress = (ss g).map fun a =>
    (st.heap.server a).ipaddress :=
  List.map_map

theorem setRouterId_eq (h : Holds st gs ss ws) (hg : g ∈ gs) {a : Nat} (ha : a ∈ ss g)
    (id : UInt32) :
    (ss g).map (st.setRouterId a id).heap.server =
      ((st.view ss ws g).setRouterId (st.heap.server a).ipaddress id).servers := by
  unfold GroupView.setRouterId view
  rw [List.map_map]
  refine List.map_congr_left fun b hb => ?_
  obtain rfl | hne := eq_or_ne b a
  · simp [WccpState.setRouterId]
  · have hips : (st.heap.server b).ipaddress ≠ (st.heap.server a).ipaddress := fun he => by
      have hinj := h.serverIps g hg
      rw [List.map_map] at hinj
      exact hne (List.inj_on_of_nodup_map hinj hb ha he)
    simp [WccpState.setRouterId, hne, hips]

theorem processWccpRouterIdComponent (h : Holds st gs ss ws) (hg : g ∈ gs) (buf : Mem)
    (component : Nat) :
    ∃ st' ws', st.processWccpRouterIdComponent g buf component = .ok st' ∧
      Changed st st' gs ss ws ss ws' g ((st.view ss ws g).routerId buf component) := by
  unfold WccpState.processWccpRouterIdComponent GroupView.routerId
  rw [h.findWccpServer hg, ok_bind]
  generalize UInt32.ofNat (buf.le32 (component + 4)) = ip
  obtain ⟨hfind, hip⟩ | ⟨a, ha, rfl, hfind⟩ :=
    find?_key (fun a => (st.heap.server a).ipaddress) ip (ss g)
  · rw [← map_ipaddress st ss ws] at hip
    exact ⟨st, ws, by rw [hfind]; rfl, by rw [if_neg hip]; exact h.refl⟩
  · have hip : (st.heap.server a).ipaddress ∈ (st.view ss ws g).servers.map WccpServer.ipaddress :=
      List.mem_map_of_mem (List.mem_map_of_mem ha)
    have hid := h.setRouterId hg ha (UInt32.ofNat (buf.be32 (component + 8)))
    rw [h.setRouterId_eq hg ha] at hid
    obtain ⟨st', ws', hst', hview⟩ := hid.holds.processWccpRouterViewComponent hg buf
      (component + buf.be16 (component + 2) + 4)
    rw [hid.self] at hview
    refine ⟨st', ws', by rw [hfind]; exact hst', ?_⟩
    rw [if_pos hip]
    exact hid.trans hview

theorem processWccpServiceComponent (h : Holds st gs ss ws) (buf : Mem) (component : Nat) :
    ∃ st' ws', st.processWccpServiceComponent buf component = .ok st' ∧ Holds st' gs ss ws' ∧
      ∀ g ∈ gs, st'.view ss ws' g =
        if (st.group g).groupId = UInt8.ofNat (htons (buf (component + 5)).toNat) then
          (st.view ss ws g).routerId buf (component + buf.be16 (component + 2) + 4)
        else st.view ss ws g := by
  unfold WccpState.processWccpServiceComponent
  rw [h.findWccpServiceGroup, ok_bind]
  generalize UInt8.ofNat (htons (buf (component + 5)).toNat) = id
  obtain ⟨hfind, hid⟩ | ⟨g, hg, hid, hfind⟩ := find?_key (fun g => (st.group g).groupId) id gs
  · refine ⟨st, ws, by rw [hfind]; rfl, h, fun g hg => ?_⟩
    rw [if_neg fun he => hid (List.mem_map.2 ⟨g, hg, he⟩)]
  · obtain ⟨st', ws', hst', hchanged⟩ := h.processWccpRouterIdComponent hg buf
      (component + buf.be16 (component + 2) + 4)
    refine ⟨st', ws', by rw [hfind]; exact hst', hchanged.holds, fun g' hg' => ?_⟩
    obtain rfl | hne := eq_or_ne g' g
    · rw [if_pos hid]
      exact hchanged.self
    · rw [if_neg fun he => hne (List.inj_on_of_nodup_map h.ids hg' hg (he.trans hid.symm))]
      exact hchanged.others g' hg' hne

theorem wccpHandler (h : Holds st gs ss ws) (buf : Mem) :
    ∃ st' ws', st.wccpHandler buf = .ok st' ∧ Holds st' gs ss ws' := by
  unfold WccpState.wccpHandler
  split
  · obtain ⟨st', ws', hst', hholds, -⟩ :=
      h.processWccpServiceComponent buf (8 + buf.be16 (8 + 2) + 4)
    exact ⟨st', ws', hst', hholds⟩
  · exact ⟨st, ws, rfl, h⟩

/-! ## Commands -/

variable {M : Type} (cliWccpMode : M)

/-- `wccp` leaves with a group, an old one or a new one, or with no mode and nothing changed. -/
theorem cliEnterWccpMode (h : Holds st gs ss ws) (parameters : List Token) :
    ∃ result st' gs' ss' ws', st.cliEnterWccpMode cliWccpMode parameters = .ok (result, st') ∧
      Holds st' gs' ss' ws' ∧ ∀ g, result.data = some g → g ∈ gs' := by
  unfold WccpState.cliEnterWccpMode
  split
  next parameter =>
    split
    · dsimp only
      rw [h.findWccpServiceGroup, ok_bind]
      obtain ⟨hfind, hid⟩ | ⟨g, hg, hid, hfind⟩ :=
        find?_key (fun g => (st.group g).groupId) (UInt8.ofNat (atoi parameter).toNat) gs
      · obtain ⟨st', hst', hholds⟩ := h.insertServiceGroup hid
        refine ⟨{ mode := some cliWccpMode, data := some st.groupsAllocated }, st', _, _, _,
          ?_, hholds, ?_⟩
        · rw [hfind]
          exact bind_eq_ok.2 ⟨st', hst', rfl⟩
        · intro g hg
          obtain rfl : st.groupsAllocated = g := Option.some.inj hg
          simp
      · refine ⟨{ mode := some cliWccpMode, data := some g }, st, gs, ss,
          ws, by rw [hfind]; rfl, h, ?_⟩
        intro g' hg'
        obtain rfl : g = g' := Option.some.inj hg'
        exact hg
    · exact ⟨_, st, gs, ss, ws, rfl, h, by simp⟩
  · exact ⟨_, st, gs, ss, ws, rfl, h, by simp⟩

/-- `server` adds an address that the group does not have. -/
theorem cliWccpServer_new (h : Holds st gs ss ws) (hg : g ∈ gs) {inetPton : Token → Option UInt32}
    {parameter : Token} {ip : UInt32} (hpton : inetPton parameter = some ip)
    (hip : ip ∉ (st.view ss ws g).servers.map WccpServer.ipaddress) :
    ∃ st' ss', st.cliWccpServer cliWccpMode inetPton [parameter] (some g) =
        .ok ({ mode := some cliWccpMode, data := some g }, st') ∧
      st'.serversAllocated = st.serversAllocated + 1 ∧
      Changed st st' gs ss ws ss' ws g
        { st.view ss ws g with servers := (st.view ss ws g).servers ++ [⟨ip, 0⟩] } := by
  obtain ⟨st', hst', hallocated, hchanged⟩ := h.insertServer hg hip
  refine ⟨st', _, ?_, hallocated, hchanged⟩
  simp only [WccpState.cliWccpServer, hpton]
  rw [h.findWccpServer hg, ok_bind]
  obtain ⟨hfind, -⟩ | ⟨a, ha, rfl, -⟩ := find?_key (fun a => (st.heap.server a).ipaddress) ip (ss g)
  · rw [hfind]
    exact bind_eq_ok.2 ⟨st', hst', rfl⟩
  · exact absurd (List.mem_map_of_mem (List.mem_map_of_mem ha)) hip

/-- An address that the group has, or that is none, changes nothing. -/
theorem cliWccpServer_known (h : Holds st gs ss ws) (hg : g ∈ gs) {inetPton : Token → Option UInt32}
    {parameters : List Token}
    (hknown : ∀ parameter ip, parameters = [parameter] → inetPton parameter = some ip →
      ip ∈ (st.view ss ws g).servers.map WccpServer.ipaddress) :
    st.cliWccpServer cliWccpMode inetPton parameters (some g) =
      .ok ({ mode := some cliWccpMode, data := some g }, st) := by
  unfold WccpState.cliWccpServer
  dsimp only
  split
  next parameter =>
    cases hpton : inetPton parameter with
    | none => rfl
    | some ip =>
      have hip := hknown parameter ip rfl hpton
      rw [map_ipaddress] at hip
      obtain ⟨-, hnone⟩ | ⟨a, -, -, hfind⟩ :=
        find?_key (fun a => (st.heap.server a).ipaddress) ip (ss g)
      · exact absurd hip hnone
      · dsimp only
        rw [h.findWccpServer hg, hfind]
        rfl
  · rfl

theorem cliWccpServer (h : Holds st gs ss ws) (hg : g ∈ gs) (inetPton : Token → Option UInt32)
    (parameters : List Token) :
    ∃ st' ss', st.cliWccpServer cliWccpMode inetPton parameters (some g) =
        .ok ({ mode := some cliWccpMode, data := some g }, st') ∧ Holds st' gs ss' ws := by
  by_cases hknown : ∀ parameter ip, parameters = [parameter] → inetPton parameter = some ip →
      ip ∈ (st.view ss ws g).servers.map WccpServer.ipaddress
  · exact ⟨st, ss, h.cliWccpServer_known cliWccpMode hg hknown, h⟩
  · push Not at hknown
    obtain ⟨parameter, ip, rfl, hpton, hip⟩ := hknown
    obtain ⟨st', ss', hst', -, hchanged⟩ := h.cliWccpServer_new cliWccpMode hg hpton hip
    exact ⟨st', ss', hst', hchanged.holds⟩

end WccpState.Holds

/-! ## Runs -/

/-- A group that is found under its ID. -/
def WccpState.Listed (st : WccpState) (g : Nat) : Prop :=
  ∃ id, st.findWccpServiceGroup id = .ok (some g)

/-- The states that commands and messages lead to, in any order. The data of a command in the WCCP
mode is a group of the list. -/
inductive WccpState.Reached (inetPton : Token → Option UInt32) : WccpState → Prop
  | init : Reached inetPton {}
  | wccp {st st' : WccpState} {parameters : List Token} {result : CommandResult Unit Nat} :
    Reached inetPton st → st.cliEnterWccpMode () parameters = .ok (result, st') →
      Reached inetPton st'
  | server {st st' : WccpState} {g : Nat} {parameters : List Token}
    {result : CommandResult Unit Nat} :
      Reached inetPton st → st.Listed g →
      st.cliWccpServer () inetPton parameters (some g) = .ok (result, st') → Reached inetPton st'
  | message {st st' : WccpState} {buf : Mem} : Reached inetPton st → st.wccpHandler buf = .ok st' →
      Reached inetPton st'

namespace WccpState.Holds

variable {st : WccpState} {gs : List Nat} {ss ws : Nat → List Nat} {g : Nat}

theorem findWccpServiceGroup_groupId (h : Holds st gs ss ws) (hg : g ∈ gs) :
    st.findWccpServiceGroup (st.group g).groupId = .ok (some g) := by
  rw [h.findWccpServiceGroup]
  obtain ⟨-, hnone⟩ | ⟨g', hg', hid, hfind⟩ :=
    find?_key (fun g => (st.group g).groupId) (st.group g).groupId gs
  · exact absurd (List.mem_map.2 ⟨g, hg, rfl⟩) hnone
  · rw [hfind, List.inj_on_of_nodup_map h.ids hg' hg hid]

theorem listed_iff (h : Holds st gs ss ws) : st.Listed g ↔ g ∈ gs := by
  refine ⟨fun ⟨id, hid⟩ => ?_, fun hg => ⟨_, h.findWccpServiceGroup_groupId hg⟩⟩
  rw [h.findWccpServiceGroup] at hid
  exact List.mem_of_find?_eq_some (Except.ok.inj hid)

end WccpState.Holds

/-- **The lists of every reached state are those of its groups.** -/
theorem WccpState.Reached.holds {inetPton : Token → Option UInt32} {st : WccpState}
    (h : Reached inetPton st) :
    ∃ gs ss ws, Holds st gs ss ws := by
  induction h with
  | init => exact ⟨_, _, _, Holds.init⟩
  | wccp _ hstep ih =>
    obtain ⟨gs, ss, ws, hholds⟩ := ih
    obtain ⟨result, st', gs', ss', ws', hst', hholds', -⟩ := hholds.cliEnterWccpMode () _
    obtain ⟨-, rfl⟩ := Prod.mk.inj (Except.ok.inj (hst'.symm.trans hstep))
    exact ⟨gs', ss', ws', hholds'⟩
  | server _ hlisted hstep ih =>
    obtain ⟨gs, ss, ws, hholds⟩ := ih
    obtain ⟨st', ss', hst', hholds'⟩ := hholds.cliWccpServer () (hholds.listed_iff.1 hlisted) _ _
    obtain ⟨-, rfl⟩ := Prod.mk.inj (Except.ok.inj (hst'.symm.trans hstep))
    exact ⟨gs, ss', ws, hholds'⟩
  | message _ hstep ih =>
    obtain ⟨gs, ss, ws, hholds⟩ := ih
    obtain ⟨st', ws', hst', hholds'⟩ := hholds.wccpHandler _
    obtain rfl := Except.ok.inj (hst'.symm.trans hstep)
    exact ⟨gs, ss, ws', hholds'⟩

/-! ## A run -/

def octet (part : Token) : Option Nat :=
  if part.length ≤ 3 ∧ part.all Char.isDigit ∧ Nat.ofDigitChars 10 part 0 ≤ 255 ∧
      (part = ['0'] ∨ part.head?.any (· ≠ '0')) then
    some (Nat.ofDigitChars 10 part 0)
  else none

/-- `inet_pton` for IPv4, with the address as a little-endian host loads it. -/
def inetPton (address : Token) : Option UInt32 :=
  match address.splitOn '.' with
  | [a, b, c, d] => do
    let a ← octet a
    let b ← octet b
    let c ← octet c
    let d ← octet d
    return UInt32.ofNat (a + b * 256 + c * 65536 + d * 16777216)
  | _ => none

namespace WccpState

/-- The state after `wccp`. -/
def enter (st : WccpState) (parameter : Token) : WccpState :=
  match st.cliEnterWccpMode () [parameter] with
  | .ok (_, st') => st'
  | .error _ => st

/-- The state after `server` in the group `g`. -/
def serve (st : WccpState) (g : Nat) (parameter : Token) : WccpState :=
  match st.cliWccpServer () inetPton [parameter] (some g) with
  | .ok (_, st') => st'
  | .error _ => st

def hear (st : WccpState) (buf : Mem) : WccpState :=
  match st.wccpHandler buf with
  | .ok st' => st'
  | .error _ => st

section Run

variable {st : WccpState} {pton : Token → Option UInt32}

theorem Reached.enter (h : st.Reached pton) (parameter : Token) :
    (st.enter parameter).Reached pton := by
  unfold WccpState.enter
  split
  · next hstep => exact .wccp h hstep
  · exact h

theorem Reached.serve (h : st.Reached inetPton) {g : Nat} (hg : st.Listed g) (parameter : Token) :
    (st.serve g parameter).Reached inetPton := by
  unfold WccpState.serve
  split
  · next hstep => exact .server h hg hstep
  · exact h

theorem Reached.hear (h : st.Reached pton) (buf : Mem) : (st.hear buf).Reached pton := by
  unfold WccpState.hear
  split
  · next hstep => exact .message h hstep
  · exact h

end Run

def groupFive : WccpState := ({} : WccpState).enter ['5']

theorem reached_groupFive (pton : Token → Option UInt32) : groupFive.Reached pton :=
  Reached.init.enter ['5']

theorem listed_groupFive : groupFive.Listed 0 := ⟨5, by decide +kernel⟩

/-- The group 5 with the server 10.0.0.9. -/
def groupFiveServer : WccpState := groupFive.serve 0 "10.0.0.9".toList

theorem reached_groupFiveServer : groupFiveServer.Reached inetPton :=
  (reached_groupFive inetPton).serve listed_groupFive _

theorem listed_groupFiveServer : groupFiveServer.Listed 0 := ⟨5, by decide +kernel⟩

/-- The groups 0 and 5, and the server 10.0.0.9 in the first. -/
def twoGroups : WccpState :=
  ((({} : WccpState).enter ['0']).enter ['5']).serve 0 "10.0.0.9".toList

theorem reached_twoGroups : twoGroups.Reached inetPton :=
  (((Reached.init).enter ['0']).enter ['5']).serve ⟨0, by decide +kernel⟩ "10.0.0.9".toList

theorem listed_twoGroups : twoGroups.Listed 0 ∧ twoGroups.Listed 1 :=
  ⟨⟨0, by decide +kernel⟩, 5, by decide +kernel⟩

end WccpState

end Opennop
