import Opennop.Wccp.Reached

/-!
# The web-caches of a router view

A router view component announces its web-caches, and the loop of
`process_wccp_router_view_component` makes as many passes. The pointer into the component does not
move between them, so that every pass is about the first web-cache: the others are learned only if
they were known, or have the same address.
-/

namespace Opennop

open Mem

/-- A router view component with `routers` routers and the web-caches `caches`. -/
structure RouterViewAt (buf : Mem) (component routers : Nat) (caches : List UInt32)
    (changeNumber : UInt32) : Prop where
  length : buf.be16 (component + 2) = 20 + 4 * routers + 44 * caches.length
  changeNumber : buf.be32 (component + 4) = changeNumber.toNat
  numRouters : buf.be32 (component + 16) = routers
  numWebcaches : buf.be32 (component + 20 + 4 * routers) = caches.length
  cacheIp : ∀ i : Fin caches.length, buf.le32 (component + 24 + 4 * routers + 44 * i) =
    (caches.get i).toNat

namespace WccpState

def KnowsWebcache (st : WccpState) (g : Nat) (ip : UInt32) : Prop :=
  ∃ a, st.findWccpWebcache g ip = .ok (some a)

/-- The web-caches `caches` of a router view have been learned, between `st` and `st'`, and the
group is as the view has it. -/
structure Learned (st st' : WccpState) (g : Nat) (buf : Mem) (component : Nat)
    (caches : List UInt32) (changeNumber : UInt32) (l : List Nat) : Prop where
  linked : Linked (st'.group g).webcaches st'.heap.webcacheItem l
  all : ∀ c ∈ caches, c ∈ l.map st'.heap.webcache
  kept : ∀ c, st.KnowsWebcache g c → c ∈ l.map st'.heap.webcache
  once : (l.map st'.heap.webcache).Nodup
  count : (st'.group g).webcaches.count = l.length
  changeNumber : (st'.group g).changeNumber = changeNumber
  again : st'.processWccpRouterViewComponent g buf component = .ok st'

end WccpState

variable {buf : Mem} {component routers g : Nat} {caches : List UInt32} {changeNumber : UInt32}

theorem RouterViewAt.routerView_eq (h : RouterViewAt buf component routers caches changeNumber)
    {v : GroupView} (hnew : changeNumber ≠ v.changeNumber) :
    v.routerView buf component =
      match caches.head? with
      | none => { v with changeNumber }
      | some c => GroupView.learn { v with changeNumber } c := by
  have hcount : buf.be32 (component + 16 + 4 * routers + 4) = caches.length := by
    rw [← h.numWebcaches]
    congr 1
    omega
  unfold GroupView.routerView
  dsimp only
  rw [h.changeNumber, UInt32.ofNat_toNat, if_pos hnew, h.numRouters, hcount]
  cases caches with
  | nil => rfl
  | cons c cs =>
    have hip : buf.le32 (component + 16 + 4 * routers + 4 + 4) = c.toNat := by
      have hfirst := h.cacheIp ⟨0, by simp⟩
      rw [show component + 16 + 4 * routers + 4 + 4 =
        component + 24 + 4 * routers + 44 * 0 by omega]
      exact hfirst
    rw [if_pos (by simp), hip, UInt32.ofNat_toNat]
    rfl

/-- A view that has been applied is not applied again. -/
theorem RouterViewAt.process_again (h : RouterViewAt buf component routers caches changeNumber)
    {st : WccpState} (hdone : (st.group g).changeNumber = changeNumber) :
    st.processWccpRouterViewComponent g buf component = .ok st := by
  unfold WccpState.processWccpRouterViewComponent
  dsimp only
  rw [h.changeNumber, UInt32.ofNat_toNat, if_neg (not_not.2 hdone.symm)]

namespace WccpState

variable {st : WccpState} {gs : List Nat} {ss ws : Nat → List Nat}

theorem Holds.knowsWebcache_iff (h : Holds st gs ss ws) (hg : g ∈ gs) (ip : UInt32) :
    st.KnowsWebcache g ip ↔ ip ∈ (st.view ss ws g).webcaches := by
  unfold KnowsWebcache
  simp only [h.findWccpWebcache hg, Except.ok.injEq]
  exact exists_find?_key_iff st.heap.webcache ip (ws g)

theorem mem_webcaches_learn {v : GroupView} {ip c : UInt32} :
    c ∈ (v.learn ip).webcaches ↔ c = ip ∨ c ∈ v.webcaches := by
  unfold GroupView.learn
  dsimp only
  split
  · exact ⟨.inr, fun h => h.elim (fun he => he ▸ ‹_›) id⟩
  · rw [List.mem_append, List.mem_singleton, or_comm]

/-- The web-caches of the group after a new view: those it had, and the first one of the view. -/
theorem mem_webcaches_routerView (hv : RouterViewAt buf component routers caches changeNumber)
    {v : GroupView} (hnew : changeNumber ≠ v.changeNumber) {c : UInt32} :
    c ∈ (v.routerView buf component).webcaches ↔ some c = caches.head? ∨ c ∈ v.webcaches := by
  rw [hv.routerView_eq hnew]
  cases caches.head? with
  | none => simp
  | some c₀ => rw [mem_webcaches_learn, Option.some.injEq]

theorem changeNumber_routerView (hv : RouterViewAt buf component routers caches changeNumber)
    {v : GroupView} (hnew : changeNumber ≠ v.changeNumber) :
    (v.routerView buf component).changeNumber = changeNumber := by
  rw [hv.routerView_eq hnew]
  cases caches.head? <;> rfl

variable {inetPton : Token → Option UInt32}

/-- What is learned is known before, or the first web-cache of the view. -/
theorem Learned.known {st' : WccpState} {l : List Nat} (hr : st.Reached inetPton) (hg : st.Listed g)
    (hv : RouterViewAt buf component routers caches changeNumber)
    (hnew : changeNumber ≠ (st.group g).changeNumber)
    (hst' : st.processWccpRouterViewComponent g buf component = .ok st')
    (hl : Learned st st' g buf component caches changeNumber l) :
    ∀ c ∈ caches, some c = caches.head? ∨ st.KnowsWebcache g c := by
  obtain ⟨gs, ss, ws, h⟩ := hr.holds
  have hmem := h.listed_iff.1 hg
  obtain ⟨st₁, ws', hst₁, hchanged⟩ := h.processWccpRouterViewComponent hmem buf component
  obtain rfl := Except.ok.inj (hst'.symm.trans hst₁)
  have hlinked := hchanged.holds.webcaches.linked g hmem
  obtain rfl := hl.linked.list.forward.unique hlinked.list.forward
  intro c hc
  rw [h.knowsWebcache_iff hmem, ← mem_webcaches_routerView hv hnew, ← hchanged.self]
  exact hl.all c hc

/-- **Which router views are learned**: those whose web-caches are known, but for the first one. -/
theorem processWccpRouterViewComponent_learned_iff (hr : st.Reached inetPton) (hg : st.Listed g)
    (hv : RouterViewAt buf component routers caches changeNumber)
    (hnew : changeNumber ≠ (st.group g).changeNumber) :
    (∃ st' l, st.processWccpRouterViewComponent g buf component = .ok st' ∧
        Learned st st' g buf component caches changeNumber l) ↔
      ∀ c ∈ caches, some c = caches.head? ∨ st.KnowsWebcache g c := by
  refine ⟨fun ⟨st', l, hst', hl⟩ => hl.known hr hg hv hnew hst', fun hknown => ?_⟩
  obtain ⟨gs, ss, ws, h⟩ := hr.holds
  have hmem := h.listed_iff.1 hg
  obtain ⟨st', ws', hst', hchanged⟩ := h.processWccpRouterViewComponent hmem buf component
  have hlinked := hchanged.holds.webcaches.linked g hmem
  have hwebcaches : ∀ c, c ∈ (ws' g).map st'.heap.webcache ↔ some c = caches.head? ∨
      st.KnowsWebcache g c := by
    intro c
    rw [h.knowsWebcache_iff hmem, ← mem_webcaches_routerView hv hnew, ← hchanged.self]
    rfl
  have hnumber : (st'.group g).changeNumber = changeNumber := by
    rw [← changeNumber_routerView (v := st.view ss ws g) hv hnew, ← hchanged.self]
    rfl
  exact ⟨st', ws' g, hst', hlinked, fun c hc => (hwebcaches c).2 (hknown c hc),
    fun c hc => (hwebcaches c).2 (.inr hc), hchanged.holds.webcacheIps g hmem,
      hlinked.count, hnumber,
    hv.process_again hnumber⟩

/-- A router view with the web-caches 10.0.0.1 and 10.0.0.2. -/
def twoCaches : Mem := ofList ([0, 4, 0, 108, 0, 0, 0, 1] ++ List.replicate 12 0 ++ [0, 0, 0, 2] ++
  [10, 0, 0, 1] ++ List.replicate 40 0 ++ [10, 0, 0, 2] ++ List.replicate 40 0)

theorem routerViewAt_twoCaches : RouterViewAt twoCaches 0 0 [0x0100000a, 0x0200000a] 1 := by
  constructor <;> decide

/-- An I_SEE_YOU message of the router 10.0.0.9 for group 0, whose router view has the web-cache
10.0.0.2. -/
def secondSeen : Mem := ofList ([0, 0, 0, 11, 0, 0, 0, 0] ++ [0, 0, 0, 4, 0, 0, 0, 0] ++
  ([0, 1, 0, 24] ++ List.replicate 24 0) ++ [0, 2, 0, 12, 10, 0, 0, 9, 0, 0, 0, 7, 0, 0, 0, 0] ++
  ([0, 4, 0, 64, 0, 0, 0, 3] ++ List.replicate 12 0 ++ [0, 0, 0, 1] ++ [10, 0, 0, 2] ++
  List.replicate 40 0))

/-- The second web-cache is known from an earlier message. -/
theorem processWccpRouterViewComponent_secondKnown :
    ∃ st' l, (twoGroups.hear secondSeen).processWccpRouterViewComponent 0 twoCaches 0 = .ok st' ∧
      Learned (twoGroups.hear secondSeen) st' 0 twoCaches 0 [0x0100000a, 0x0200000a] 1 l := by
  refine (processWccpRouterViewComponent_learned_iff (reached_twoGroups.hear secondSeen)
    ⟨0, by decide +kernel⟩ routerViewAt_twoCaches (by decide +kernel)).2 fun c hc => ?_
  rcases List.mem_cons.1 hc with rfl | hc
  · exact .inl rfl
  · rw [List.mem_singleton.1 hc]
    exact .inr ⟨0, by decide +kernel⟩

/-- The second web-cache of a router view is not learned. -/
theorem processWccpRouterViewComponent_secondLost :
    ∃ st : WccpState, (∀ inetPton, st.Reached inetPton) ∧ st.Listed 0 ∧
      RouterViewAt twoCaches 0 0 [0x0100000a, 0x0200000a] 1 ∧ 1 ≠ (st.group 0).changeNumber ∧
      ¬ ∃ st' l, st.processWccpRouterViewComponent 0 twoCaches 0 = .ok st' ∧
        Learned st st' 0 twoCaches 0 [0x0100000a, 0x0200000a] 1 l := by
  have hnew : (1 : UInt32) ≠ (groupFive.group 0).changeNumber := by decide +kernel
  refine ⟨groupFive, reached_groupFive, listed_groupFive, routerViewAt_twoCaches, hnew, ?_⟩
  rintro ⟨st', l, hst', hl⟩
  have hknown :=
    hl.known (reached_groupFive fun _ => none) listed_groupFive routerViewAt_twoCaches hnew hst'
  obtain hfirst | ⟨a, ha⟩ := hknown 0x0200000a (by simp)
  · exact absurd hfirst (by decide)
  · have hnone : groupFive.findWccpWebcache 0 0x0200000a = .ok none := by decide +kernel
    exact nomatch hnone.symm.trans ha

end WccpState

end Opennop
