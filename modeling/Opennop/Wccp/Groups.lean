import Mathlib.Data.List.Perm.Subperm
import Opennop.Wccp.State

/-!
# The lists of the service groups

`Lists` says that every group of a list of groups has its own linked list in a common memory; a new
item enters one of the lists and leaves the others alone. `Holds` is the invariant of the service
groups: commands and received messages keep it.
-/

namespace Opennop

/-! ## Several lists in one memory -/

theorem insertListItem_frame {head head' : ListHead Nat} {items items' : Nat → ListItem Nat}
    {a x : Nat} (h : insertListItem head items (some a) = .ok (head', items')) (hx : x ≠ a)
    (hlast : some x ≠ head.prev) :
    items' x = items x := by
  unfold insertListItem at h
  cases hnext : head.next with
  | none =>
    simp only [hnext, Except.ok.injEq, Prod.mk.injEq] at h
    rw [← h.2, Function.update_of_ne hx]
  | some b =>
    cases hprev : head.prev with
    | none => simp [hnext, hprev] at h
    | some last =>
      simp only [hnext, hprev, Except.ok.injEq, Prod.mk.injEq] at h
      have hxl : x ≠ last := fun he => hlast (by rw [he, hprev])
      rw [← h.2, Function.update_of_ne hx, Function.update_of_ne hxl]

theorem Linked.congr {head : ListHead Nat} {items items' : Nat → ListItem Nat} {l : List Nat}
    (h : Linked head items l) (hitems : ∀ a ∈ l, items' a = items a) : Linked head items' l :=
  ⟨h.list.congr (fun a ha => by rw [hitems a ha]) fun a ha => by rw [hitems a ha], h.count⟩

/-- Each of the groups `G` has a list of its own, whose items have been allocated. -/
structure Lists (G : List Nat) (head : Nat → ListHead Nat) (items : Nat → ListItem Nat)
    (allocated : Nat) (l : Nat → List Nat) : Prop where
  linked : ∀ g ∈ G, Linked (head g) items (l g)
  lt : ∀ g ∈ G, ∀ a ∈ l g, a < allocated
  apart : ∀ g ∈ G, ∀ g' ∈ G, ∀ a, a ∈ l g → a ∈ l g' → g = g'

namespace Lists

variable {G : List Nat} {head : Nat → ListHead Nat} {items : Nat → ListItem Nat} {n g : Nat}
  {l : Nat → List Nat}

theorem congr (h : Lists G head items n l) {head' : Nat → ListHead Nat}
    (hhead : ∀ g ∈ G, head' g = head g) :
    Lists G head' items n l :=
  ⟨fun g hg => hhead g hg ▸ h.linked g hg, h.lt, h.apart⟩

theorem insert (h : Lists G head items n l) (hg : g ∈ G) :
    ∃ head' items', insertListItem (head g) (Function.update items n {}) (some n) =
      .ok (head', items') ∧
        Lists G (Function.update head g head') items' (n + 1)
          (Function.update l g (l g ++ [n])) := by
  have hfresh : ∀ g' ∈ G, n ∉ l g' := fun g' hg' hn => Nat.lt_irrefl n (h.lt g' hg' n hn)
  have hclean : ∀ g' ∈ G, Linked (head g') (Function.update items n {}) (l g') := fun g' hg' =>
    (h.linked g' hg').congr fun a ha => by
      have hne : a ≠ n := fun he => hfresh g' hg' (he ▸ ha)
      exact Function.update_of_ne hne ..
  obtain ⟨head', items', hins, hlinked⟩ := (hclean g hg).insertListItem (hfresh g hg)
  have hframe : ∀ g' ∈ G, g' ≠ g → ∀ a ∈ l g', items' a = Function.update items n {} a := by
    intro g' hg' hne a ha
    refine insertListItem_frame hins (fun he => hfresh g' hg' (he ▸ ha)) fun hlast => hne ?_
    rw [(hclean g hg).list.tail_eq] at hlast
    exact h.apart g' hg' g hg a ha (List.mem_of_getLast? hlast.symm)
  refine ⟨head', items', hins, fun g' hg' => ?_, fun g' hg' a ha => ?_,
    fun g₁ h₁ g₂ h₂ a ha₁ ha₂ => ?_⟩
  · obtain rfl | hne := eq_or_ne g' g
    · rwa [Function.update_self, Function.update_self]
    · rw [Function.update_of_ne hne, Function.update_of_ne hne]
      exact (hclean g' hg').congr (hframe g' hg' hne)
  · obtain rfl | hne := eq_or_ne g' g
    · rw [Function.update_self, List.mem_append, List.mem_singleton] at ha
      obtain ha | rfl := ha
      · exact Nat.lt_succ_of_lt (h.lt g' hg' a ha)
      · exact Nat.lt_succ_self _
    · rw [Function.update_of_ne hne] at ha
      exact Nat.lt_succ_of_lt (h.lt g' hg' a ha)
  · -- the new item is in the list of `g` only, and the others are where they were
    have hold : ∀ g' ∈ G, a ∈ Function.update l g (l g ++ [n]) g' → (a = n → g' = g) ∧
        (a ≠ n → a ∈ l g') := by
      intro g' hg' ha
      obtain rfl | hne := eq_or_ne g' g
      · rw [Function.update_self, List.mem_append, List.mem_singleton] at ha
        exact ⟨fun _ => rfl, fun hn => ha.resolve_right hn⟩
      · rw [Function.update_of_ne hne] at ha
        exact ⟨fun hn => absurd (hn ▸ ha) (hfresh g' hg'), fun _ => ha⟩
    obtain hn | hn := eq_or_ne a n
    · exact ((hold g₁ h₁ ha₁).1 hn).trans ((hold g₂ h₂ ha₂).1 hn).symm
    · exact h.apart g₁ h₁ g₂ h₂ a ((hold g₁ h₁ ha₁).2 hn) ((hold g₂ h₂ ha₂).2 hn)

theorem concat (h : Lists G head items n l) (hg : g ∉ G) {head' : Nat → ListHead Nat}
    (hhead : ∀ g' ∈ G, head' g' = head g') (hnew : head' g = {}) :
    Lists (G ++ [g]) head' items n (Function.update l g []) := by
  have hold : ∀ g' ∈ G, Function.update l g [] g' = l g' := by
    intro g' hg'
    have hne : g' ≠ g := fun he => hg (he ▸ hg')
    exact Function.update_of_ne hne ..
  have hmem : ∀ g' ∈ G ++ [g], ∀ a ∈ Function.update l g [] g', g' ∈ G ∧ a ∈ l g' := by
    intro g' hg' a ha
    rw [List.mem_append, List.mem_singleton] at hg'
    obtain hg' | rfl := hg'
    · exact ⟨hg', hold g' hg' ▸ ha⟩
    · rw [Function.update_self] at ha
      exact absurd ha List.not_mem_nil
  refine ⟨fun g' hg' => ?_, fun g' hg' a ha => ?_, fun g₁ h₁ g₂ h₂ a ha₁ ha₂ => ?_⟩
  · rw [List.mem_append, List.mem_singleton] at hg'
    obtain hg' | rfl := hg'
    · rw [hhead g' hg', hold g' hg']
      exact h.linked g' hg'
    · rw [hnew, Function.update_self]
      exact Linked.nil _
  · exact h.lt g' (hmem g' hg' a ha).1 a (hmem g' hg' a ha).2
  · exact h.apart g₁ (hmem g₁ h₁ a ha₁).1 g₂ (hmem g₂ h₂ a ha₂).1 a (hmem g₁ h₁ a ha₁).2
      (hmem g₂ h₂ a ha₂).2

theorem length_le (h : Lists G head items n l) (hg : g ∈ G) : (l g).length ≤ n := by
  have hsub : (l g).Subperm (List.range n) :=
    List.subperm_of_subset (h.linked g hg).list.nodup fun a ha => List.mem_range.2 (h.lt g hg a ha)
  simpa using hsub.length_le

end Lists

theorem Linked.findItem {head : ListHead Nat} {items : Nat → ListItem Nat} {l : List Nat} {n : Nat}
    (h : Linked head items l) (hlen : l.length ≤ n) (hit : Nat → Bool) :
    findItem items hit n head = .ok (l.find? hit) :=
  search_eq h.list.forward (fun _ _ => rfl) (Nat.le_succ_of_le hlen)

theorem find?_key {K : Type} [DecidableEq K] (key : Nat → K) (k : K) (l : List Nat) :
    (l.find? (fun a => key a = k) = none ∧ k ∉ l.map key) ∨
      ∃ a ∈ l, key a = k ∧ l.find? (fun a => key a = k) = some a := by
  cases hfind : l.find? fun a => key a = k with
  | none =>
    refine .inl ⟨rfl, fun hk => ?_⟩
    obtain ⟨a, ha, rfl⟩ := List.mem_map.1 hk
    simpa using List.find?_eq_none.1 hfind a ha
  | some a =>
    exact .inr ⟨a, List.mem_of_find?_eq_some hfind, by simpa using List.find?_some hfind, rfl⟩

theorem exists_find?_key_iff {K : Type} [DecidableEq K] (key : Nat → K) (k : K) (l : List Nat) :
    (∃ a, l.find? (fun a => key a = k) = some a) ↔ k ∈ l.map key := by
  obtain ⟨hfind, hk⟩ | ⟨a, ha, rfl, hfind⟩ := find?_key key k l
  · rw [hfind]
    exact ⟨fun ⟨a, h⟩ => (nomatch h), fun h => absurd h hk⟩
  · exact ⟨fun _ => List.mem_map_of_mem ha, fun _ => ⟨a, hfind⟩⟩

/-! ## The invariant -/

/-- The groups are `gs`, with the servers `ss` and the web-caches `ws`. -/
structure WccpState.Holds (st : WccpState) (gs : List Nat) (ss ws : Nat → List Nat) : Prop where
  groups : Linked st.serviceGroups st.groupItem gs
  groups_lt : ∀ g ∈ gs, g < st.groupsAllocated
  ids : (gs.map fun g => (st.group g).groupId).Nodup
  servers : Lists gs (fun g => (st.group g).servers) st.heap.serverItem st.serversAllocated ss
  serverIps : ∀ g ∈ gs, (((ss g).map st.heap.server).map WccpServer.ipaddress).Nodup
  webcaches :
    Lists gs (fun g => (st.group g).webcaches) st.heap.webcacheItem st.webcachesAllocated ws
  webcacheIps : ∀ g ∈ gs, ((ws g).map st.heap.webcache).Nodup

/-- What a group is, apart from where its items are. -/
structure GroupView where
  groupId : UInt8
  changeNumber : UInt32
  servers : List WccpServer
  webcaches : List UInt32

def WccpState.view (st : WccpState) (ss ws : Nat → List Nat) (g : Nat) : GroupView where
  groupId := (st.group g).groupId
  changeNumber := (st.group g).changeNumber
  servers := (ss g).map st.heap.server
  webcaches := (ws g).map st.heap.webcache

/-- `st'` is `st` with the group `g` turned into `v`. -/
structure WccpState.Changed (st st' : WccpState) (gs : List Nat) (ss ws ss' ws' : Nat → List Nat)
    (g : Nat) (v : GroupView) : Prop where
  holds : Holds st' gs ss' ws'
  self : st'.view ss' ws' g = v
  others : ∀ g' ∈ gs, g' ≠ g → st'.view ss' ws' g' = st.view ss ws g'

theorem WccpState.Changed.trans {st st₁ st₂ : WccpState} {gs : List Nat}
    {ss ws ss₁ ws₁ ss₂ ws₂ : Nat → List Nat} {g : Nat} {v₁ v₂ : GroupView}
    (h₁ : Changed st st₁ gs ss ws ss₁ ws₁ g v₁) (h₂ : Changed st₁ st₂ gs ss₁ ws₁ ss₂ ws₂ g v₂) :
    Changed st st₂ gs ss ws ss₂ ws₂ g v₂ :=
  ⟨h₂.holds, h₂.self, fun g' hg' hne => (h₂.others g' hg' hne).trans (h₁.others g' hg' hne)⟩

namespace WccpState.Holds

variable {st : WccpState} {gs : List Nat} {ss ws : Nat → List Nat} {g : Nat}

theorem init : Holds {} [] (fun _ => []) fun _ => [] where
  groups := Linked.nil _
  groups_lt := by simp
  ids := List.nodup_nil
  servers := ⟨by simp, by simp, by simp⟩
  serverIps := by simp
  webcaches := ⟨by simp, by simp, by simp⟩
  webcacheIps := by simp

theorem findWccpServiceGroup (h : Holds st gs ss ws) (id : UInt8) :
    st.findWccpServiceGroup id = .ok (gs.find? fun g => (st.group g).groupId = id) := by
  refine h.groups.findItem ?_ _
  have hsub : gs.Subperm (List.range st.groupsAllocated) :=
    List.subperm_of_subset h.groups.list.nodup fun g hg => List.mem_range.2 (h.groups_lt g hg)
  simpa using hsub.length_le

theorem findWccpServer (h : Holds st gs ss ws) (hg : g ∈ gs) (ip : UInt32) :
    st.findWccpServer g ip = .ok ((ss g).find? fun a => (st.heap.server a).ipaddress = ip) :=
  (h.servers.linked g hg).findItem (h.servers.length_le hg) _

theorem findWccpWebcache (h : Holds st gs ss ws) (hg : g ∈ gs) (ip : UInt32) :
    st.findWccpWebcache g ip = .ok ((ws g).find? fun a => st.heap.webcache a = ip) :=
  (h.webcaches.linked g hg).findItem (h.webcaches.length_le hg) _

theorem refl (h : Holds st gs ss ws) : Changed st st gs ss ws ss ws g (st.view ss ws g) :=
  ⟨h, rfl, fun _ _ _ => rfl⟩

/-! ### Fields -/

theorem setChangeNumber (h : Holds st gs ss ws) (g : Nat) (v : UInt32) :
    Changed st (st.setChangeNumber g v) gs ss ws ss ws g
      { st.view ss ws g with changeNumber := v } := by
  have hgroup : ∀ g', (st.setChangeNumber g v).group g' =
      { st.group g' with changeNumber := if g' = g then v else (st.group g').changeNumber } := by
    intro g'
    by_cases hg' : g' = g <;> simp [WccpState.setChangeNumber, hg']
  refine ⟨⟨h.groups, h.groups_lt, ?_, h.servers.congr fun g' _ => by rw [hgroup g'], h.serverIps,
    h.webcaches.congr fun g' _ => by rw [hgroup g'], h.webcacheIps⟩, ?_, fun g' _ hne => ?_⟩
  · simpa only [hgroup] using h.ids
  · rw [view, hgroup g, if_pos rfl]
    rfl
  · rw [view, hgroup g', if_neg hne]
    rfl

theorem setRouterId (h : Holds st gs ss ws) (hg : g ∈ gs) {a : Nat} (ha : a ∈ ss g) (v : UInt32) :
    Changed st (st.setRouterId a v) gs ss ws ss ws g
      { st.view ss ws g with servers := (ss g).map (st.setRouterId a v).heap.server } := by
  refine ⟨⟨h.groups, h.groups_lt, h.ids, h.servers, fun g' hg' => ?_, h.webcaches,
    h.webcacheIps⟩, rfl, fun g' hg' hne => ?_⟩
  · convert h.serverIps g' hg' using 1
    rw [List.map_map, List.map_map]
    refine List.map_congr_left fun b _ => ?_
    by_cases hb : b = a <;> simp [WccpState.setRouterId, hb]
  · have hmap : (ss g').map (st.setRouterId a v).heap.server = (ss g').map st.heap.server :=
      List.map_congr_left fun b hb => by
        have hba : b ≠ a := fun he => hne (h.servers.apart g' hg' g hg a (he ▸ hb) ha)
        simp [WccpState.setRouterId, hba]
    rw [view, hmap]
    rfl

/-! ### New items -/

/-- The values of the items of the groups when one is written at a new address and appended to the
list of `g`. -/
theorem map_insert {α : Type} {head : Nat → ListHead Nat} {items : Nat → ListItem Nat} {n : Nat}
    {l : Nat → List Nat} (h : Lists gs head items n l) (f : Nat → α) (v : α) {g' : Nat}
    (hg' : g' ∈ gs) :
    (Function.update l g (l g ++ [n]) g').map (Function.update f n v) =
      (l g').map f ++ if g' = g then [v] else [] := by
  have hold : (l g').map (Function.update f n v) = (l g').map f := List.map_congr_left fun a ha =>
    Function.update_of_ne (Nat.ne_of_lt (h.lt g' hg' a ha)) ..
  obtain rfl | hne := eq_or_ne g' g
  · rw [Function.update_self, if_pos rfl, List.map_append, hold, List.map_singleton,
      Function.update_self]
  · rw [Function.update_of_ne hne, if_neg hne, hold, List.append_nil]

theorem nodup_insert {α : Type} {k : Nat → List α} {v : α} {g' : Nat} (hk : (k g').Nodup)
    (hv : v ∉ k g) :
    (k g' ++ if g' = g then [v] else []).Nodup := by
  obtain rfl | hne := eq_or_ne g' g
  · rw [if_pos rfl, ← List.concat_eq_append, List.nodup_concat]
    exact ⟨hv, hk⟩
  · rwa [if_neg hne, List.append_nil]

theorem insertServer (h : Holds st gs ss ws) (hg : g ∈ gs) {ip : UInt32}
    (hip : ip ∉ (st.view ss ws g).servers.map WccpServer.ipaddress) :
    ∃ st', st.insertServer g ip = .ok st' ∧ st'.serversAllocated = st.serversAllocated + 1 ∧
      Changed st st' gs ss ws (Function.update ss g (ss g ++ [st.serversAllocated])) ws g
        { st.view ss ws g with servers := (st.view ss ws g).servers ++ [⟨ip, 0⟩] } := by
  obtain ⟨servers, serverItem, hins, hlists⟩ := h.servers.insert hg
  let st' : WccpState := { st with
    group := Function.update st.group g { st.group g with servers }
    heap := { st.heap with
      serverItem, server := Function.update st.heap.server st.serversAllocated ⟨ip, 0⟩ }
    serversAllocated := st.serversAllocated + 1 }
  have hgroup : ∀ g', st'.group g' =
      { st.group g' with servers := if g' = g then servers else (st.group g').servers } := by
    intro g'
    by_cases hg' : g' = g <;> simp [st', hg']
  have hvalues : ∀ g' ∈ gs, (Function.update ss g (ss g ++ [st.serversAllocated]) g').map
    st'.heap.server = (ss g').map st.heap.server ++ if g' = g then [⟨ip, 0⟩] else [] :=
    fun g' hg' => map_insert h.servers _ _ hg'
  refine ⟨st', by rw [WccpState.insertServer, hins]; rfl, rfl,
    ⟨h.groups, h.groups_lt, ?_, ?_, fun g' hg' => ?_, ?_,
    h.webcacheIps⟩, ?_, fun g' hg' hne => ?_⟩
  · simpa only [hgroup] using h.ids
  · refine hlists.congr fun g' _ => ?_
    rw [hgroup, Function.update_apply]
  · rw [hvalues g' hg', List.map_append, apply_ite (List.map WccpServer.ipaddress)]
    exact nodup_insert (k := fun g' => ((ss g').map st.heap.server).map WccpServer.ipaddress)
      (h.serverIps g' hg') hip
  · exact h.webcaches.congr fun g' _ => by rw [hgroup]
  · rw [view, hvalues g hg, if_pos rfl, hgroup]
    rfl
  · rw [view, hvalues g' hg', if_neg hne, List.append_nil, hgroup]
    rfl

theorem insertWebcache (h : Holds st gs ss ws) (hg : g ∈ gs) {ip : UInt32}
    (hip : ip ∉ (st.view ss ws g).webcaches) :
    ∃ st', st.insertWebcache g ip = .ok st' ∧
      Changed st st' gs ss ws ss (Function.update ws g (ws g ++ [st.webcachesAllocated])) g
        { st.view ss ws g with webcaches := (st.view ss ws g).webcaches ++ [ip] } := by
  obtain ⟨webcaches, webcacheItem, hins, hlists⟩ := h.webcaches.insert hg
  let st' : WccpState := { st with
    group := Function.update st.group g { st.group g with webcaches }
    heap := { st.heap with
      webcacheItem, webcache := Function.update st.heap.webcache st.webcachesAllocated ip }
    webcachesAllocated := st.webcachesAllocated + 1 }
  have hgroup : ∀ g', st'.group g' =
      { st.group g' with webcaches := if g' = g then webcaches else (st.group g').webcaches } := by
    intro g'
    by_cases hg' : g' = g <;> simp [st', hg']
  have hvalues : ∀ g' ∈ gs, (Function.update ws g (ws g ++ [st.webcachesAllocated]) g').map
    st'.heap.webcache = (ws g').map st.heap.webcache ++ if g' = g then [ip] else [] :=
    fun g' hg' => map_insert h.webcaches _ _ hg'
  refine ⟨st', by rw [WccpState.insertWebcache, hins]; rfl,
    ⟨h.groups, h.groups_lt, ?_, ?_, h.serverIps, ?_,
    fun g' hg' => ?_⟩, ?_, fun g' hg' hne => ?_⟩
  · simpa only [hgroup] using h.ids
  · exact h.servers.congr fun g' _ => by rw [hgroup]
  · refine hlists.congr fun g' _ => ?_
    rw [hgroup, Function.update_apply]
  · rw [hvalues g' hg']
    exact nodup_insert (k := fun g' => (ws g').map st.heap.webcache) (h.webcacheIps g' hg') hip
  · rw [view, hvalues g hg, if_pos rfl, hgroup]
    rfl
  · rw [view, hvalues g' hg', if_neg hne, List.append_nil, hgroup]
    rfl

theorem insertServiceGroup (h : Holds st gs ss ws) {id : UInt8}
    (hid : id ∉ gs.map fun g => (st.group g).groupId) :
    ∃ st', st.insertServiceGroup id = .ok st' ∧
      Holds st' (gs ++ [st.groupsAllocated]) (Function.update ss st.groupsAllocated [])
        (Function.update ws st.groupsAllocated []) := by
  have hfresh : st.groupsAllocated ∉ gs := fun hm => Nat.lt_irrefl _ (h.groups_lt _ hm)
  have hne : ∀ g ∈ gs, g ≠ st.groupsAllocated := fun g hg he => hfresh (he ▸ hg)
  have hclean : Linked st.serviceGroups (Function.update st.groupItem st.groupsAllocated {}) gs :=
    h.groups.congr fun g hg => Function.update_of_ne (hne g hg) ..
  obtain ⟨serviceGroups, groupItem, hins, hlinked⟩ := hclean.insertListItem hfresh
  let st' : WccpState := { st with
    serviceGroups, groupItem
    group := Function.update st.group st.groupsAllocated ⟨id, 0, {}, {}⟩
    groupsAllocated := st.groupsAllocated + 1 }
  have hold : ∀ g ∈ gs, st'.group g = st.group g := fun g hg => Function.update_of_ne (hne g hg) ..
  have hnew : st'.group st.groupsAllocated = ⟨id, 0, {}, {}⟩ := Function.update_self ..
  have hempty : ∀ {α : Type} (f : Nat → α) (l : Nat → List Nat), (∀ g ∈ gs, ((l g).map f).Nodup) →
      ∀ g ∈ gs ++ [st.groupsAllocated],
        ((Function.update l st.groupsAllocated [] g).map f).Nodup := by
    intro α f l hl g hg
    rw [List.mem_append, List.mem_singleton] at hg
    obtain hg | rfl := hg
    · rw [Function.update_of_ne (hne g hg)]
      exact hl g hg
    · rw [Function.update_self]
      exact List.nodup_nil
  refine ⟨st', by rw [WccpState.insertServiceGroup, hins]; rfl, hlinked, fun g hg => ?_, ?_,
    h.servers.concat hfresh (fun g hg => by rw [hold g hg]) (by rw [hnew]), fun g hg => ?_,
    h.webcaches.concat hfresh (fun g hg => by rw [hold g hg]) (by rw [hnew]),
      hempty _ ws h.webcacheIps⟩
  · rw [List.mem_append, List.mem_singleton] at hg
    obtain hg | rfl := hg
    · exact Nat.lt_succ_of_lt (h.groups_lt g hg)
    · exact Nat.lt_succ_self _
  · rw [List.map_append, List.map_congr_left fun g hg => congrArg _ (hold g hg),
      List.map_singleton, hnew, ← List.concat_eq_append, List.nodup_concat]
    exact ⟨hid, h.ids⟩
  · rw [List.map_map]
    exact hempty _ ss (fun g hg => by rw [← List.map_map]; exact h.serverIps g hg) g hg

end WccpState.Holds

end Opennop
