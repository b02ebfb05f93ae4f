import Opennop.Buffer.Kept

/-!
# No packet is lost

The invariant of the packets: every packet that was delivered has its verdict, waits in one queue,
or is in the hand of one thread; and the packets of a queue are answered in the order in which they
came. It needs that the kernel gives every packet its own number. There is one lemma for each action
that moves a packet, and one for all the others.
-/

namespace Opennop

inductive Place where
  | answered
  | waiting (q : Lane)
  | inHand (th : Thread)
  deriving DecidableEq

namespace World

variable {A B : Type}

def places (w : World A B) (chain : QueueName → List B) : Place → List Nat
  | .answered => w.verdicts
  | .waiting q => (chain (.lane q)).map w.idOf
  | .inHand th => w.hand th

section

variable (w : World A B) (chain : QueueName → List B) (q : Lane) (th : Thread)

theorem places_waiting : w.places chain (.waiting q) = (chain (.lane q)).map w.idOf := rfl

theorem places_inHand : w.places chain (.inHand th) = w.hand th := rfl

end

/-- The packets in the hand of a thread in a phase. -/
def packets (w : World A B) : Phase B → List Nat
  | .packet i | .sure i | .fresh i _ | .buffer i _ | .saved i _ | .knows _ _ i => [i]
  | .has _ b => [w.idOf b]
  | _ => []

/-- **The invariant of the packets.** -/
structure Packets (w : World A B) (chain : QueueName → List B) (φ : Thread → Phase B) : Prop where
  hand : ∀ th, w.hand th = w.packets (φ th)
  places : Partition (w.places chain) w.delivered
  order : ∀ q, w.verdicts.filter (· ∈ w.arrived q) ++ w.hand (.processor q) ++
    (chain (.lane q)).map w.idOf = w.arrived q

variable {w w' : World A B} {chain chain' : QueueName → List B} {φ : Thread → Phase B} {th : Thread}
  {φ' : Phase B} {b : B} {i : Nat} {q : Lane}

/-- What waits in a queue is not changed by a thread that works on its own buffer. -/
theorem Inv.waiting_eq (h : w.Inv chain φ)
    (hid : ∀ b ∈ w.ever, b ∉ w.held th → w'.idOf b = w.idOf b) (n : QueueName) :
    (chain n).map w'.idOf = (chain n).map w.idOf := by
  refine List.map_congr_left fun b hb => hid b (h.parts.mem_all (.queue n) b hb) ?_
  exact h.parts.not_mem (i := .queue n) (j := .thread th) hb (nofun)

theorem Inv.packets_eq (h : w.Inv chain φ)
    (hid : ∀ b ∈ w.ever, b ∉ w.held th → w'.idOf b = w.idOf b) {th' : Thread} (hne : th' ≠ th) :
    w'.packets (φ th') = w.packets (φ th') := by
  have hheld := (h.stands th').held
  cases hφ : φ th' with
  | has q b =>
    have hb : b ∈ w.held th' := by
      rw [hheld, hφ]
      exact List.mem_singleton_self b
    exact congrArg (fun i => [i]) (hid b (h.mem_ever hb) (h.not_mem_held hb (Ne.symm hne)))
  | _ => rfl

theorem update_other_lane (chain : QueueName → List B) (l : List B) (q' : Lane) (hne : q' ≠ q) :
    Function.update chain (.lane q) l (.lane q') = chain (.lane q') :=
  Function.update_of_ne (fun he => hne (QueueName.lane.inj he)) l chain

namespace Packets

theorem mem_arrived (hp : w.Packets chain φ) (hi : i ∈ w.arrived q) :
    i ∈ w.verdicts ∨ i ∈ w.hand (.processor q) ∨ i ∈ (chain (.lane q)).map w.idOf := by
  rw [← hp.order q, List.mem_append, List.mem_append] at hi
  rcases hi with (hi | hi) | hi
  · exact .inl (List.mem_of_mem_filter hi)
  · exact .inr (.inl hi)
  · exact .inr (.inr hi)

/-- A packet in hand was queued only for the processor that has it. -/
theorem not_arrived (hp : w.Packets chain φ) (hi : i ∈ w.hand th) (hne : th ≠ .processor q) :
    i ∉ w.arrived q := by
  intro harr
  have hin : i ∈ w.places chain (.inHand th) := hi
  rcases hp.mem_arrived harr with hv | hh | hw
  · exact absurd (hp.places.unique .answered (.inHand th) i hv hin) (nofun)
  · exact hne (Place.inHand.inj (hp.places.unique (.inHand th) (.inHand (.processor q)) i hin hh))
  · exact absurd (hp.places.unique (.waiting q) (.inHand th) i hw hin) (nofun)

theorem not_verdict (hp : w.Packets chain φ) (hi : i ∈ w.hand th) : i ∉ w.verdicts :=
  hp.places.not_mem (i := .inHand th) (j := .answered) hi (nofun)

theorem hand_update (hp : w.Packets chain φ) (h : w.Inv chain φ)
    (hid : ∀ b ∈ w.ever, b ∉ w.held th → w'.idOf b = w.idOf b)
    (hother : ∀ th', th' ≠ th → w'.hand th' = w.hand th') (hself : w'.hand th = w'.packets φ')
    (th' : Thread) : w'.hand th' = w'.packets (Function.update φ th φ' th') := by
  by_cases hne : th' = th
  · subst hne
    rw [Function.update_self]
    exact hself
  · rw [Function.update_of_ne hne, h.packets_eq hid hne, hother th' hne]
    exact hp.hand th'

/-- **An action that moves no packet.** -/
theorem quiet (hp : w.Packets chain φ) (h : w.Inv chain φ)
    (hid : ∀ b ∈ w.ever, b ∉ w.held th → w'.idOf b = w.idOf b)
    (hlane : ∀ q, chain' (.lane q) = chain (.lane q)) (hhand : w'.hand = w.hand)
    (hverdicts : w'.verdicts = w.verdicts) (harrived : w'.arrived = w.arrived)
    (hdelivered : w'.delivered = w.delivered) (hφ : w'.packets φ' = w.packets (φ th)) :
    w'.Packets chain' (Function.update φ th φ') := by
  have hwait : ∀ q, (chain' (.lane q)).map w'.idOf = (chain (.lane q)).map w.idOf := by
    intro q
    rw [hlane q]
    exact h.waiting_eq hid (.lane q)
  have hplaces : w'.places chain' = w.places chain := by
    funext pl
    cases pl with
    | answered => exact hverdicts
    | waiting q => exact hwait q
    | inHand th' => exact congrFun hhand th'
  refine ⟨hp.hand_update h hid (fun th' _ => congrFun hhand th') ?_, ?_, fun q => ?_⟩
  · rw [hhand, hφ]
    exact hp.hand th
  · rw [hplaces, hdelivered]
    exact hp.places
  · rw [hverdicts, harrived, hhand, hwait q]
    exact hp.order q

/-- **A verdict** on the packet in hand. -/
theorem answer (hp : w.Packets chain φ) (h : w.Inv chain φ) (hhand : w.hand th = [i])
    (hφ : w.packets φ' = []) : (w.answer th i).Packets chain (Function.update φ th φ') := by
  have hother : ∀ th', th' ≠ th →
      Function.update w.hand th ((w.hand th).erase i) th' = w.hand th' :=
    fun th' hne => Function.update_of_ne hne _ w.hand
  have hself : Function.update w.hand th ((w.hand th).erase i) th = [] := update_put hhand
  have hmem : i ∈ w.hand th := by
    rw [hhand]
    exact List.mem_singleton_self i
  refine ⟨hp.hand_update h (fun _ _ _ => rfl) hother ?_, ?_, fun q => ?_⟩
  · rw [show (w.answer th i).packets φ' = w.packets φ' by cases φ' <;> rfl, hφ]
    exact hself
  · refine hp.places.move (i := .inHand th) (j := .answered) (x := i) (nofun) ?_ ?_
      fun pl hpl hpl' => ?_
    · change (w.hand th).Perm (i :: Function.update w.hand th ((w.hand th).erase i) th)
      rw [hself, hhand]
    · exact List.perm_append_singleton i w.verdicts
    · cases pl with
      | answered => exact absurd rfl hpl'
      | waiting q => rfl
      | inHand th' => exact hother th' fun hth => hpl (congrArg Place.inHand hth)
  · change (w.verdicts ++ [i]).filter (· ∈ w.arrived q) ++
      Function.update w.hand th ((w.hand th).erase i)
      (.processor q) ++ (chain (.lane q)).map w.idOf = w.arrived q
    have horder := hp.order q
    rw [List.filter_append]
    by_cases hq : th = .processor q
    · subst hq
      -- the packet was the next one of this queue
      have harr : i ∈ w.arrived q := by
        rw [← horder, hhand]
        simp
      rw [hself, List.append_nil, List.filter_cons_of_pos (by simpa using harr), List.filter_nil]
      rw [hhand] at horder
      exact horder
    · have harr := hp.not_arrived hmem hq
      rw [hother _ (Ne.symm hq), List.filter_cons_of_neg (by simpa using harr), List.filter_nil,
        List.append_nil]
      exact horder

section Queues

variable [DecidableEq B] {mem : Buffers QueueName B}

/-- **The fetcher hands its packet over** to a queue. -/
theorem handOver (hp : w.Packets chain φ) (h : w.Inv chain φ) (hhand : w.hand .fetcher = [i])
    (hid : w.idOf b = i) (hmem : ∀ x, mem.content x = w.mem.content x) :
    ((w.release .fetcher (.lane q) b).setMem mem).Packets
      (Function.update chain (.lane q) (chain (.lane q) ++ [b]))
      (Function.update φ .fetcher .rest) := by
  have hidOf : ((w.release .fetcher (.lane q) b).setMem mem).idOf = w.idOf := by
    funext x
    exact idOf_congr (hmem x)
  have hother : ∀ th', th' ≠ Thread.fetcher →
      Function.update w.hand .fetcher ((w.hand .fetcher).erase (w.idOf b)) th' = w.hand th' :=
    fun th' hne => Function.update_of_ne hne _ w.hand
  have hself : Function.update w.hand .fetcher ((w.hand .fetcher).erase (w.idOf b)) .fetcher = [] :=
    update_put (hid ▸ hhand)
  have hwait := update_other_lane (q := q) chain (chain (.lane q) ++ [b])
  have hhand' : ((w.release .fetcher (.lane q) b).setMem mem).hand .fetcher = [] := hself
  have hmemhand : i ∈ w.hand .fetcher := by
    rw [hhand]
    exact List.mem_singleton_self i
  refine ⟨hp.hand_update h (fun x _ _ => congrFun hidOf x) hother hself, ?_, fun q' => ?_⟩
  · refine hp.places.move (i := .inHand .fetcher) (j := .waiting q) (x := i) (nofun) ?_ ?_
      fun pl hpl hpl' => ?_
    · rw [places_inHand, places_inHand, hhand']
      exact hhand ▸ .refl _
    · rw [places_waiting, places_waiting, Function.update_self, hidOf, List.map_append,
        List.map_singleton, hid]
      exact List.perm_append_singleton i _
    · cases pl with
      | answered => rfl
      | waiting q' =>
        rw [places_waiting, places_waiting, hidOf,
          hwait q' fun hq => hpl' (congrArg Place.waiting hq)]
      | inHand th' => exact hother th' fun hth => hpl (congrArg Place.inHand hth)
  · change w.verdicts.filter (· ∈ Function.update w.arrived q (w.arrived q ++ [w.idOf b]) q') ++
      Function.update w.hand .fetcher ((w.hand .fetcher).erase (w.idOf b)) (.processor q') ++
      List.map ((w.release .fetcher (.lane q) b).setMem mem).idOf
        (Function.update chain (.lane q) (chain (.lane q) ++ [b]) (.lane q')) =
      Function.update w.arrived q (w.arrived q ++ [w.idOf b]) q'
    have horder := hp.order q'
    rw [hidOf, hother (.processor q') (nofun)]
    by_cases hq : q' = q
    · subst hq
      -- the new packet has no verdict yet
      have hnot := hp.not_verdict hmemhand
      have hfilter : w.verdicts.filter (· ∈ w.arrived q' ++ [i]) =
          w.verdicts.filter (· ∈ w.arrived q') := by
        refine List.filter_congr fun j hj => ?_
        have hji : j ≠ i := fun he => hnot (he ▸ hj)
        simp [hji]
      rw [Function.update_self, Function.update_self, hid, hfilter, List.map_append,
        List.map_singleton, hid, ← List.append_assoc, horder]
    · rw [Function.update_of_ne hq, hwait q' hq]
      exact horder

omit [DecidableEq B] in
/-- **A processor takes** the next packet from its queue. -/
theorem receive (hp : w.Packets chain φ) (h : w.Inv chain φ) {l : List B}
    (hchain : chain (.lane q) = b :: l) (hhand : w.hand (.processor q) = [])
    (hmem : ∀ x, mem.content x = w.mem.content x) :
    ((w.receive (.processor q) (.lane q) b).setMem mem).Packets
      (Function.update chain (.lane q) l) (Function.update φ (.processor q) (.has q b)) := by
  have hidOf : ((w.receive (.processor q) (.lane q) b).setMem mem).idOf = w.idOf := by
    funext x
    exact idOf_congr (hmem x)
  have hother : ∀ th', th' ≠ Thread.processor q →
      Function.update w.hand (.processor q) (w.hand (.processor q) ++ [w.idOf b])
        th' = w.hand th' :=
    fun th' hne => Function.update_of_ne hne _ w.hand
  have hself : Function.update w.hand (.processor q) (w.hand (.processor q) ++ [w.idOf b])
      (.processor q) = [w.idOf b] := update_take hhand _
  have hhand' :
      ((w.receive (.processor q) (.lane q) b).setMem mem).hand (.processor q) = [w.idOf b] :=
    hself
  have hwait := update_other_lane (q := q) chain l
  refine ⟨hp.hand_update h (fun x _ _ => congrFun hidOf x) hother ?_, ?_, fun q' => ?_⟩
  · exact hself.trans (congrArg (fun f => [f b]) hidOf.symm)
  · refine hp.places.move (i := .waiting q) (j := .inHand (.processor q))
      (x := w.idOf b) (nofun) ?_ ?_
      fun pl hpl hpl' => ?_
    · rw [places_waiting, places_waiting, Function.update_self, hidOf, hchain, List.map_cons]
    · rw [places_inHand, places_inHand, hhand, hhand']
    · cases pl with
      | answered => rfl
      | waiting q' =>
        rw [places_waiting, places_waiting, hidOf,
          hwait q' fun hq => hpl (congrArg Place.waiting hq)]
      | inHand th' => exact hother th' fun hth => hpl' (congrArg Place.inHand hth)
  · change w.verdicts.filter (· ∈ w.arrived q') ++
      Function.update w.hand (.processor q) (w.hand (.processor q) ++ [w.idOf b]) (.processor q') ++
      List.map ((w.receive (.processor q) (.lane q) b).setMem mem).idOf
        (Function.update chain (.lane q) l (.lane q')) = w.arrived q'
    have horder := hp.order q'
    rw [hidOf]
    by_cases hq : q' = q
    · subst hq
      rw [hhand, hchain, List.map_cons, List.append_nil] at horder
      rw [hself, Function.update_self, List.append_assoc]
      exact horder
    · rw [hother _ fun he => hq (Thread.processor.inj he), hwait q' hq]
      exact horder

end Queues

/-- **The kernel delivers** a packet with a new number. -/
theorem deliver (hp : w.Packets chain φ) (h : w.Inv chain φ) (hhand : w.hand .fetcher = [])
    (hnew : i ∉ w.delivered) (job : Thread → Job A B Unit) :
    ({ w with
      job
      delivered := w.delivered ++ [i]
      hand := Function.update w.hand .fetcher (w.hand .fetcher ++ [i]) } : World A B).Packets chain
      (Function.update φ .fetcher (.packet i)) := by
  have hother : ∀ th', th' ≠ Thread.fetcher →
      Function.update w.hand .fetcher (w.hand .fetcher ++ [i]) th' = w.hand th' :=
    fun th' hne => Function.update_of_ne hne _ w.hand
  have hself : Function.update w.hand .fetcher (w.hand .fetcher ++ [i]) .fetcher = [i] :=
    update_take hhand i
  refine ⟨hp.hand_update h (fun _ _ _ => rfl) hother hself, ?_, fun q => ?_⟩
  · refine hp.places.insert (j := .inHand .fetcher) hnew ?_ fun pl hpl => ?_
    · change (Function.update w.hand .fetcher (w.hand .fetcher ++ [i]) .fetcher).Perm
        (i :: w.hand .fetcher)
      rw [hself, hhand]
    · cases pl with
      | answered => rfl
      | waiting q => rfl
      | inHand th' => exact hother th' fun hth => hpl (congrArg Place.inHand hth)
  · change w.verdicts.filter (· ∈ w.arrived q) ++ Function.update w.hand .fetcher
      (w.hand .fetcher ++ [i]) (.processor q) ++ (chain (.lane q)).map w.idOf = w.arrived q
    rw [hother (.processor q) (nofun)]
    exact hp.order q

end Packets

end World

end Opennop
