import Opennop.Buffer.Pool
import Opennop.Buffer.Sessions

/-!
# Every packet gets one verdict

`Once w chain` says that every packet that was delivered has its verdict, waits in one queue or is
in the hand of one thread, that no packet has two verdicts, that the packets of a queue are answered
in the order in which they came, and that a processor returns every buffer it takes. This holds in
every run of the fetcher and the processors in which the fetcher's second look at the neighbors
confirms its first, and with the memory manager as long as no buffer is lost.

A packet leaves the hand of a thread only if the thread goes on (`Going`). That is so for packets
with options that the threads get through with (`Handled`) and as long as no session is removed
under a thread that uses it (`Exclusive`); there are packets for which an option function runs
forever, and two processors can free one session.
-/

namespace Opennop

/-- The step is one of the kernel, the fetcher or a processor. -/
def Event.Unmanaged {A B : Type} : Event A B → Prop
  | .refill => False
  | .act th _ => th ≠ .memorymanager
  | _ => True

instance {A B : Type} (e : Event A B) : Decidable e.Unmanaged := by
  cases e <;> unfold Event.Unmanaged <;> infer_instance

namespace World

section Conditions

variable {A B : Type} (w : World A B)

/-- The kernel gives every packet a 32-bit number of its own. -/
def Numbered : Event A B → Prop
  | .deliver _ id _ _ => id < 4294967296 ∧ id ∉ w.delivered
  | _ => True

/-- The fetcher gets through with the packet that the kernel delivers, and a processor with the
packet that it loads. -/
def Handled : Event A B → Prop
  | .deliver env id _ p => env.running → p.protocol = ipprotoTcp → id ≠ 0 → Fetchable env p
  | .act (.processor q) _ => ∀ b, (w.job (.processor q)).head? = some (.load b) →
    ∀ pkt, w.mem.heap b = some pkt → Workable (w.env q) pkt.data
  | _ => True

instance (e : Event A B) : Decidable (w.Numbered e) := by
  cases e <;> unfold Numbered <;> infer_instance

/-- **Every packet is in one place and has at most one verdict.** -/
structure Once (chain : QueueName → List B) : Prop where
  lane : ∀ q, Queue w.mem (.lane q) (chain (.lane q))
  place : ∀ i ∈ w.delivered, ∃! pl, i ∈ w.places chain pl
  waiting : ∀ q, ((chain (.lane q)).map w.idOf).Nodup
  verdicts : w.verdicts.Nodup
  /-- Between two packets the fetcher has none, and the memory manager never has one. -/
  fetcher : ∀ u, w.job .fetcher = .done u → w.hand .fetcher = []
  memorymanager : w.hand .memorymanager = []
  /-- The buffers that a processor has taken and not returned are those in its hand. -/
  turns : ∀ q, w.took (.processor q) = w.gave (.processor q) ++ w.held (.processor q)
  /-- Between two packets a processor has no packet and no buffer. -/
  processor : ∀ q u, w.job (.processor q) = .done u →
    w.hand (.processor q) = [] ∧ w.held (.processor q) = []
  order : ∀ q, w.verdicts.filter (· ∈ w.arrived q) <+: w.arrived q

/-- No thread is stuck: its next action has a result. -/
def Going [DecidableEq A] [DecidableEq B] : Prop :=
  ∀ th e next, w.job th = .act e next → ∀ x, ∃ w' r, w.perform th x e = .ok (w', r)

structure Fine : Prop where
  good : ∃ chain φ, w.Good chain φ
  nodup : w.delivered.Nodup
  lt : ∀ i ∈ w.delivered, i < 4294967296
  lost : w.lost = []

def Expects : Thread → (e : Act A B) → e.Result → Prop
  | .processor q => Loads (w.env q)
  | _ => fun _ _ => True

/-- No thread comes to a fault. -/
def Guarded : Prop :=
  ∀ th, Tree.Avoids Act.Faults (w.Expects th) (fun _ => True) (w.job th)

end Conditions

variable {A B : Type} {w w' : World A B} {chain : QueueName → List B} {φ : Thread → Phase B}
  {th : Thread} {x : Input A B} {e : Event A B}

/-! ## One verdict -/

theorem Good.once (h : w.Good chain φ) (hnodup : w.delivered.Nodup) (hlost : w.lost = []) :
    w.Once chain := by
  have hp := h.packets ⟨hnodup, hlost⟩
  refine ⟨fun q => h.inv.queue (.lane q) (nofun), fun i hi => hp.places.existsUnique hi,
    fun q => hp.places.nodup (.waiting q), hp.places.nodup .answered, fun u hjob => ?_, ?_,
    h.inv.turns, fun q u hjob => ?_, fun q => ?_⟩
  · rw [hp.hand .fetcher]
    rcases h.ends hjob with hφ | hφ
    · rw [hφ]
      rfl
    · exact absurd hφ (h.ne_never .fetcher)
  · rw [hp.hand .memorymanager]
    have hth := (h.inv.stands .memorymanager).thread
    cases hφ : φ .memorymanager with
    | packet _ | sure _ | fresh _ _ | buffer _ _ | saved _ _ | knows _ _ _ | has _ _ =>
      rw [hφ] at hth
      cases hth
    | _ => rfl
  · rw [hp.hand (.processor q), (h.inv.stands (.processor q)).held]
    rcases h.ends hjob with hφ | ⟨b, hφ⟩
    · rw [hφ]
      exact ⟨rfl, rfl⟩
    · rw [hφ]
      exact ⟨rfl, rfl⟩
  · refine ⟨w.hand (.processor q) ++ (chain (.lane q)).map w.idOf, ?_⟩
    rw [← List.append_assoc]
    exact hp.order q

section Steps

variable [DecidableEq A] [DecidableEq B]

theorem delivered_step (w : World A B) (e : Event A B) :
    (w.step e).delivered = w.delivered ∨
      ∃ env id ret p, e = .deliver env id ret p ∧ (w.step e).delivered = w.delivered ++ [id] := by
  cases e with
  | deliver env id ret p =>
    change (w.deliver env id ret p).delivered = _ ∨ _
    unfold deliver
    cases hjob : w.job .fetcher with
    | done u => exact .inr ⟨env, id, ret, p, rfl, by simp [step, deliver, hjob]⟩
    | act e next => exact .inl rfl
  | pass q env =>
    refine .inl ?_
    change (w.pass q env).delivered = _
    unfold pass
    cases w.job (.processor q) <;> rfl
  | refill =>
    refine .inl ?_
    change w.refill.delivered = _
    unfold refill
    cases w.job .memorymanager <;> rfl
  | act th x =>
    refine .inl ?_
    change (w.act th x).delivered = _
    cases hjob : w.job th with
    | done u => rw [act_done hjob]
    | act a next =>
      cases hperf : w.perform th x a with
      | error f => rw [act_error hjob hperf]
      | ok res =>
        rw [act_ok hjob hperf]
        exact (effect_perform hperf).delivered
  | remove a => exact .inl rfl

/-- **The step lemma** of the numbered packets. -/
theorem Fine.step (h : w.Fine) (hnum : w.Numbered e) (hfresh : w.Fresh e) (hroom : w.Room e)
    (hcalm : w.Calm e) (hsteady : w.Steady e) : (w.step e).Fine := by
  obtain ⟨chain, φ, hgood⟩ := h.good
  refine ⟨hgood.step hfresh hroom hcalm, ?_, ?_, (lost_step hsteady).trans h.lost⟩
  · rcases delivered_step w e with heq | ⟨env, id, ret, p, rfl, heq⟩
    · rw [heq]
      exact h.nodup
    · rw [heq, List.nodup_append_comm]
      exact List.nodup_cons.2 ⟨hnum.2, h.nodup⟩
  · rcases delivered_step w e with heq | ⟨env, id, ret, p, rfl, heq⟩
    · rw [heq]
      exact h.lt
    · rw [heq]
      intro i hi
      rcases List.mem_append.1 hi with hi | hi
      · exact h.lt i hi
      · exact List.mem_singleton.1 hi ▸ hnum.1

/-! ## Without the memory manager -/

omit [DecidableEq A] [DecidableEq B] in
theorem length_lt_of_nodup {l : List Nat} {n : Nat} (hl : l.Nodup) (hlt : ∀ i ∈ l, i < n)
    (hn : 0 < n) :
    (l.filter (· ≠ 0)).length < n := by
  have hnodup : (0 :: l.filter (· ≠ 0)).Nodup :=
    List.nodup_cons.2 ⟨fun h0 => by simpa using (List.mem_filter.1 h0).2, hl.filter _⟩
  have hsub : 0 :: l.filter (· ≠ 0) ⊆ List.range n := by
    intro i hi
    rcases List.mem_cons.1 hi with rfl | hi
    · exact List.mem_range.2 hn
    · exact List.mem_range.2 (hlt i (List.mem_of_mem_filter hi))
  have hlen := (hnodup.subperm hsub).length_le
  rw [List.length_range] at hlen
  exact hlen

omit [DecidableEq A] [DecidableEq B] in
theorem Good.boot (h : w.Good chain φ) (hjob : w.job .memorymanager = managerStart) :
    φ .memorymanager = .bootAllocated := by
  have hfollows := h.follows .memorymanager
  rw [hjob] at hfollows
  obtain ⟨φ', hgoes, -⟩ := Tree.Follows.next hfollows ()
  generalize hφ : φ .memorymanager = ψ at hgoes
  cases hgoes with
  | resetAllocated => rfl

omit [DecidableEq A] [DecidableEq B] in
/-- **There is room** for the buffers that the fetcher allocates, since packets have different
numbers. -/
theorem Fine.room (h : w.Fine) (hjob : w.job .memorymanager = managerStart) (he : e.Unmanaged) :
    w.Room e := by
  obtain ⟨chain, φ, hgood⟩ := h.good
  intro a ha halloc
  cases e with
  | deliver _ _ _ _ | pass _ _ | refill | remove _ => cases ha
  | act th x =>
    obtain ⟨next, hnext⟩ := exists_next ha
    have hfollows := hgood.follows th
    rw [hnext] at hfollows
    cases a with
    | newpacket =>
      obtain ⟨φ', hgoes, -⟩ := hfollows.next x.calloc
      generalize hφ : φ th = ψ at hgoes
      cases hgoes with
      | @allocate i b hi =>
        obtain rfl := hgood.inv.thread_eq hφ rfl
        have hleft := (hgood.budget (hgood.boot hjob)).left i hφ hi
        exact Nat.lt_of_le_of_lt hleft (length_lt_of_nodup h.nodup h.lt (by omega))
      | new => exact absurd (hgood.inv.thread_eq hφ rfl) he
    | _ => cases halloc

omit [DecidableEq A] [DecidableEq B] in
theorem Good.calm (h : w.Good chain φ) (he : e.Unmanaged) : w.Calm e := by
  intro a ha
  cases e with
  | deliver _ _ _ _ | pass _ _ | refill | remove _ => cases ha
  | act th x =>
    obtain ⟨next, hnext⟩ := exists_next ha
    have hfollows := h.follows th
    rw [hnext] at hfollows
    refine ⟨fun hreset => ?_, fun hreset => ?_⟩
    · obtain rfl := Act.eq_of_resetsAllocated hreset
      obtain ⟨φ', hgoes, -⟩ := hfollows.next ()
      generalize hφ : φ th = ψ at hgoes
      cases hgoes with
      | resetAllocated => exact absurd (h.inv.thread_eq hφ rfl) he
    · obtain rfl := Act.eq_of_resetsPool hreset
      obtain ⟨φ', hgoes, -⟩ := hfollows.next ()
      generalize hφ : φ th = ψ at hgoes
      cases hgoes with
      | resetPool => exact absurd (h.inv.thread_eq hφ rfl) he

theorem job_step_of_unmanaged (he : e.Unmanaged) :
    (w.step e).job .memorymanager = w.job .memorymanager := by
  refine job_step_of_ne ?_
  cases e with
  | act th x => exact fun heq => he (Option.some.inj heq)
  | refill => exact he.elim
  | _ => exact nofun

/-! ## No thread is stuck -/

/-- **Every action that is no fault goes through**, if a call on a session finds it there. -/
theorem Good.goesThrough {a : Act A B} {next : a.Result → Job A B Unit} (h : w.Good chain φ)
    (hjob : w.job th = .act a next) (ha : ¬ a.Faults) (hlive : ∀ s, a.On s → w.live s = true)
    (x : Input A B) : ∃ w' r, w.perform th x a = .ok (w', r) := by
  have hfollows := h.follows th
  rw [hjob] at hfollows
  have hst := h.inv.stands th
  -- an action on a buffer, by the phase of the thread
  have hheld : ∀ {b}, (φ th).held = [b] → ∃ pkt, w.mem.heap b = some pkt := by
    intro b hb
    obtain ⟨pkt, hpkt, -⟩ := hst.loose b (hst.held ▸ hb ▸ List.mem_singleton_self b)
    exact ⟨pkt, hpkt⟩
  cases a with
  | fault f => exact absurd trivial ha
  | call c =>
    cases c with
    | getsession k => exact ⟨_, _, rfl⟩
    | insertsession k =>
      simp only [perform, call]
      split
      · exact ⟨_, _, rfl⟩
      · exact ⟨_, _, rfl⟩
    | read s | modify s g | clearsession s => exact ⟨_, _, if_pos (hlive s rfl)⟩
  | verify id =>
    simp only [perform]
    split
    · exact ⟨_, _, rfl⟩
    · exact ⟨_, _, rfl⟩
  | dequeuePacket n =>
    obtain ⟨φ', hgoes, -⟩ := hfollows.next none
    generalize hφ : φ th = ψ at hgoes
    cases hgoes with
    | missing =>
      obtain rfl := h.inv.thread_eq hφ rfl
      obtain ⟨b, w', hperf, -⟩ := Sound.takes (x := x) h.inv h.packets hφ
      exact ⟨w', some b, hperf⟩
    | nothing =>
      obtain rfl := h.inv.thread_eq hφ rfl
      rcases Sound.dequeues (x := x) h.inv h.packets hφ with ⟨b, w', hperf, -⟩ | hperf
      · exact ⟨w', some b, hperf⟩
      · exact ⟨w, none, hperf⟩
  | queuePacket n b =>
    obtain ⟨φ', hgoes, -⟩ := hfollows.next ()
    generalize hφ : φ th = ψ at hgoes
    cases hgoes with
    | handOver =>
      obtain rfl := h.inv.thread_eq hφ rfl
      obtain ⟨w', hperf, -⟩ := Sound.handsOver (x := x) h.inv h.packets hφ
      exact ⟨w', (), hperf⟩
    | put =>
      obtain rfl := h.inv.thread_eq hφ rfl
      obtain ⟨w', hperf, -⟩ := Sound.puts (x := x) h.inv h.packets hφ
      exact ⟨w', (), hperf⟩
    | stage =>
      obtain rfl := h.inv.thread_eq hφ rfl
      obtain ⟨w', hperf, -⟩ := Sound.stages (x := x) h.inv h.packets hφ
      exact ⟨w', (), hperf⟩
  | wipe b =>
    obtain ⟨φ', hgoes, -⟩ := hfollows.next ()
    generalize hφ : φ th = ψ at hgoes hheld
    cases hgoes with
    | wipe =>
      obtain ⟨pkt, hpkt⟩ := hheld rfl
      exact ⟨_, _, perform_wipe hpkt⟩
  | savePacket b id ret p =>
    obtain ⟨φ', hgoes, -⟩ := hfollows.next ()
    generalize hφ : φ th = ψ at hgoes hheld
    cases hgoes with
    | save =>
      obtain ⟨pkt, hpkt⟩ := hheld rfl
      exact ⟨_, _, perform_save hpkt⟩
  | load b =>
    obtain ⟨φ', hgoes, -⟩ := hfollows.next (0, fun _ => 0)
    generalize hφ : φ th = ψ at hgoes hheld
    cases hgoes with
    | load =>
      obtain ⟨pkt, hpkt⟩ := hheld rfl
      exact ⟨_, _, perform_load hpkt⟩
  | store b p =>
    obtain ⟨φ', hgoes, -⟩ := hfollows.next ()
    generalize hφ : φ th = ψ at hgoes hheld
    cases hgoes with
    | store =>
      obtain ⟨pkt, hpkt⟩ := hheld rfl
      exact ⟨_, _, perform_store hpkt⟩
  | readFlags b =>
    obtain ⟨φ', hgoes, -⟩ := hfollows.next fun _ => 0
    generalize hφ : φ th = ψ at hgoes hst
    cases hgoes with
    | readFlags =>
      -- the buffer may be in other hands, but it is still there
      obtain ⟨pkt, hpkt⟩ := (h.inv.alloc b).1 hst.fact
      exact ⟨_, _, perform_readFlags hpkt⟩
  | addQueued =>
    obtain ⟨φ', hgoes, -⟩ := hfollows.next 0
    have hadd : ∀ k, φ th = .moving k → ∃ w' r, w.perform th x .addQueued = .ok (w', r) := by
      intro k hφ
      obtain rfl := h.inv.thread_eq hφ rfl
      obtain ⟨w', hperf, -⟩ := Sound.adds (x := x) h.inv h.packets hφ
      exact ⟨w', k, hperf⟩
    generalize hφ : φ th = ψ at hgoes
    cases hgoes with
    | addQueued => exact hadd 0 hφ
    | @miscounted k n hn => exact hadd k hφ
  | _ => exact ⟨_, _, rfl⟩

theorem Guarded.going (h : w.Guarded) (hgood : w.Good chain φ) (hpointed : w.Pointed) :
    w.Going := by
  intro th a next hjob x
  have hth := h th
  rw [hjob] at hth
  exact hgood.goesThrough hjob hth.next.1 (fun _ => hpointed.live hjob) x

omit [DecidableEq A] [DecidableEq B] in
theorem expects_eq (h : ∀ q, th = .processor q → w'.env q = w.env q) :
    w'.Expects th = w.Expects th := by
  cases th with
  | fetcher => rfl
  | memorymanager => rfl
  | processor q => exact congrArg Loads (h q rfl)

omit [DecidableEq A] [DecidableEq B] in
theorem Guarded.update {t : Thread} {job : Job A B Unit} (h : w.Guarded)
    (hjob : w'.job = Function.update w.job t job)
    (henv : ∀ q, .processor q ≠ t → w'.env q = w.env q)
    (hself : Tree.Avoids Act.Faults (w'.Expects t) (fun _ => True) job) : w'.Guarded := by
  intro th'
  rw [hjob]
  by_cases hne : th' = t
  · subst hne
    rw [Function.update_self]
    exact hself
  · rw [Function.update_of_ne hne, expects_eq (w := w) fun q hq => henv q (hq ▸ hne)]
    exact h th'

theorem expects_perform {a : Act A B} {next : a.Result → Job A B Unit} {r : a.Result}
    (hjob : w.job th = .act a next) (hhandled : w.Handled (.act th x))
    (hperf : w.perform th x a = .ok (w', r)) : w.Expects th a r := by
  cases th with
  | fetcher => trivial
  | memorymanager => trivial
  | processor q =>
    cases a with
    | load b =>
      obtain ⟨pkt, hpkt, hret⟩ := bind_eq_ok.1 hperf
      cases hret
      refine (hhandled b (congrArg Tree.head? hjob) pkt ?_).parses
      unfold Buffers.load at hpkt
      split at hpkt
      · next p hp =>
        cases hpkt
        exact hp
      · cases hpkt
    | _ => trivial

/-- **The step lemma.** -/
theorem Guarded.step (h : w.Guarded) (hhandled : w.Handled e) : (w.step e).Guarded := by
  cases e with
  | deliver env id ret p =>
    change (w.deliver env id ret p).Guarded
    unfold deliver
    cases w.job .fetcher with
    | act a next => exact h
    | done u =>
      refine h.update (t := .fetcher) rfl (fun _ _ => rfl) ?_
      exact (Job.follows_fetcherTask (F := True) env id ret p
        fun _ hrun htcp hid => (hhandled hrun htcp hid).parses).avoids trivial
  | pass q env =>
    change (w.pass q env).Guarded
    unfold pass
    cases w.job (.processor q) with
    | act a next => exact h
    | done u =>
      refine h.update rfl (fun q' hq' => ?_) ?_
      · exact Function.update_of_ne (fun heq => hq' (congrArg Thread.processor heq)) env w.env
      · change Tree.Avoids Act.Faults (Loads (Function.update w.env q env q)) _ _
        rw [Function.update_self]
        exact (Job.follows_workerTask env q).avoids trivial
  | refill =>
    change w.refill.Guarded
    unfold refill
    cases w.job .memorymanager with
    | act a next => exact h
    | done u =>
      exact h.update (t := .memorymanager) rfl (fun _ _ => rfl)
        (Job.follows_managerPass.avoids trivial)
  | act th x =>
    change (w.act th x).Guarded
    cases hjob : w.job th with
    | done u =>
      rw [act_done hjob]
      exact h
    | act a next =>
      cases hperf : w.perform th x a with
      | error f =>
        rw [act_error hjob hperf]
        exact h
      | ok res =>
        obtain ⟨w', r⟩ := res
        rw [act_ok hjob hperf]
        have hth := h th
        rw [hjob] at hth
        have heffect := effect_perform hperf
        refine h.update (congrArg (fun j => Function.update j th (next r)) heffect.job)
          (fun q _ => congrFun heffect.env q) ?_
        have hnext := hth.next.2 r (expects_perform hjob hhandled hperf)
        have hexpects : w'.Expects th = w.Expects th := expects_eq fun q _ => congrFun heffect.env q
        rw [← hexpects] at hnext
        exact hnext
  | remove a => exact h

/-! ## Whole runs -/

omit [DecidableEq A] [DecidableEq B] in
theorem Fine.start (garbage : PacketHead B) (env : Env) :
    (World.start garbage env : World A B).Fine :=
  ⟨⟨_, _, Good.start garbage env⟩, List.nodup_nil, (fun _ hi => nomatch hi), rfl⟩

omit [DecidableEq A] [DecidableEq B] in
theorem Guarded.start (garbage : PacketHead B) (env : Env) :
    (World.start garbage env : World A B).Guarded := by
  intro th
  cases th with
  | memorymanager => exact Job.follows_managerStart.avoids trivial
  | _ => exact .done trivial

/-- In a run without the memory manager there is room and nothing is reset. -/
theorem along_of_unmanaged (garbage : PacketHead B) (env : Env) (es : List (Event A B))
    (hnum : Trace.Along step Numbered (start garbage env) es)
    (hfresh : Trace.Along step Fresh (start garbage env) es)
    (hsteady : Trace.Along step Steady (start garbage env) es)
    (hfree : Trace.Along step (fun _ e => e.Unmanaged) (start garbage env) es) :
    Trace.Along step Room (start garbage env) es ∧
      Trace.Along step Calm (start garbage env) es := by
  rw [← Trace.along_and]
  refine Trace.Along.of_step (I := fun w => w.Fine ∧ w.job .memorymanager = managerStart) ?_
    ⟨Fine.start garbage env, rfl⟩ (Trace.along_and.2 ⟨hnum, Trace.along_and.2
      ⟨hfresh, Trace.along_and.2 ⟨hsteady, hfree⟩⟩⟩)
  rintro w e ⟨hfine, hjob⟩ ⟨hnum, hfresh, hsteady, hfree⟩
  obtain ⟨chain, φ, hgood⟩ := hfine.good
  have hroom := hfine.room hjob hfree
  have hcalm := hgood.calm hfree
  exact ⟨⟨hroom, hcalm⟩, hfine.step hnum hfresh hroom hcalm hsteady,
    (job_step_of_unmanaged hfree).trans hjob⟩

/-- **Every packet gets at most one verdict** in every run of the fetcher and the processors in
which the fetcher's second look at the neighbors confirms its first, and with the memory manager in
every such run in which no buffer is lost; **no thread is stuck** as long as the packets have
options that the threads get through with and no session is removed under a thread that uses it. -/
theorem once_always (garbage : PacketHead B) (env : Env) (es : List (Event A B))
    (hnum : Trace.Along step Numbered (start garbage env) es)
    (hfresh : Trace.Along step Fresh (start garbage env) es)
    (hsteady : Trace.Along step Steady (start garbage env) es)
    (hmanager : Trace.Along step (fun _ e => e.Unmanaged) (start garbage env) es ∨
      Trace.Along step Room (start garbage env) es ∧ Trace.Along step Calm (start garbage env) es) :
    Trace.Always step (fun w => ∃ chain, w.Once chain) (start garbage env) es ∧
      (Trace.Along step (fun w e => w.Handled e ∧ w.Exclusive e) (start garbage env) es →
        Trace.Always step (fun w => w.Going) (start garbage env) es) := by
  obtain ⟨hroom, hcalm⟩ := hmanager.elim (along_of_unmanaged garbage env es hnum hfresh hsteady) id
  have hfine : ∀ (w : World A B) e, w.Fine →
      w.Numbered e ∧ w.Fresh e ∧ w.Room e ∧ w.Calm e ∧ w.Steady e → (w.step e).Fine := by
    rintro w e hfine ⟨hnum, hfresh, hroom, hcalm, hsteady⟩
    exact hfine.step hnum hfresh hroom hcalm hsteady
  have hlive := Trace.along_and.2 ⟨hnum, Trace.along_and.2 ⟨hfresh, Trace.along_and.2
    ⟨hroom, Trace.along_and.2 ⟨hcalm, hsteady⟩⟩⟩⟩
  constructor
  · refine (Trace.Always.of_step hfine (Fine.start garbage env) hlive).mono ?_
    intro w hfine
    obtain ⟨chain, φ, hgood⟩ := hfine.good
    exact ⟨chain, hgood.once hfine.nodup hfine.lost⟩
  · intro hhandled
    refine (Trace.Always.of_step (Q := fun w => w.Fine ∧ w.Guarded ∧ w.Pointed) ?_
      ⟨Fine.start garbage env, Guarded.start garbage env, Pointed.start garbage env⟩
      (Trace.along_and.2 ⟨hlive, hhandled⟩)).mono ?_
    · rintro w e ⟨hw, hguard, hpointed⟩ ⟨hlive, hhandled, hexclusive⟩
      exact ⟨hfine w e hw hlive, hguard.step hhandled, hpointed.step hexclusive⟩
    · rintro w ⟨hw, hguard, hpointed⟩
      obtain ⟨chain, φ, hgood⟩ := hw.good
      exact hguard.going hgood hpointed

end Steps

/-! ## Packets that get their verdicts, and some that do not -/

/-- A packet without options ends the walk for the tag. -/
theorem tagEnds_of_bare {gap : Int} {p : Mem} (h : p.areaLen = 0) : TagEnds gap p :=
  ⟨⟨0, .refl, .inl h.le⟩, fun i _ hi => absurd hi (by omega)⟩

theorem fetchable_of_bare (env : Env) {p : Mem} (hwf : WellFormed p []) (h : p.areaLen = 0) :
    Fetchable env p := by
  refine ⟨tagEnds_of_bare h, fun _ _ => ⟨[], hwf, fun h60 => ?_⟩⟩
  rw [mssValue] at h60
  cases h60

theorem workable_of_bare (env : Env) {p : Mem} (hack : p.ack = false) (h : p.areaLen = 0) :
    Workable env p := by
  have hflags : ¬ Rewritten p := by
    rintro ⟨-, hr, -⟩
    rw [hack] at hr
    cases hr
  exact ⟨tagEnds_of_bare h, fun hr => absurd hr hflags, fun hr => absurd hr hflags⟩

/-- The packet that comes has no options, and so has the one that a processor loads. -/
def bare (w : World Unit Nat) : Event Unit Nat → Bool
  | .deliver _ _ _ p => decide (WellFormed p [] ∧ p.areaLen = 0)
  | .act (.processor q) _ =>
    match (w.job (.processor q)).head? with
    | some (.load b) => (w.mem.heap b).all fun pkt =>
      decide (pkt.data.ack = false ∧ pkt.data.areaLen = 0)
    | _ => true
  | _ => true

theorem handled_of_bare {w : World Unit Nat} {e : Event Unit Nat} (h : w.bare e) :
    w.Handled e := by
  cases e with
  | deliver env id ret p =>
    obtain ⟨hwf, harea⟩ := of_decide_eq_true h
    exact fun _ _ _ => fetchable_of_bare env hwf harea
  | act th x =>
    cases th with
    | processor q =>
      intro b hb pkt hpkt
      simp only [bare, hb, hpkt, Option.all_some, decide_eq_true_eq] at h
      exact workable_of_bare _ h.1 h.2
    | _ => trivial
  | _ => trivial

/-- The fetcher and one processor take steps, and the processor removes a session when the fetcher
has nothing to do. -/
def InTurn (w : World Unit Nat) (e : Event Unit Nat) : Prop :=
  e.thread = some .fetcher ∧ w.removes e = none ∨
    e.thread = some (.processor ⟨0, false⟩) ∧ (w.removes e = none ∨ (w.job .fetcher).head?.isNone)

instance (w : World Unit Nat) (e : Event Unit Nat) : Decidable (w.InTurn e) := by
  unfold InTurn
  infer_instance

theorem exclusive_of_inTurn {env : Env} {es : List (Event Unit Nat)}
    (h : Trace.Along step InTurn (start {} env) es) :
    Trace.Along step Exclusive (start {} env) es := by
  -- the other threads never get to anything
  refine Trace.Along.of_step (I := fun w => ∀ th, th ≠ .fetcher → th ≠ .processor ⟨0, false⟩ →
    ∀ a, (w.job th).Leaves a) ?_ (fun th _ _ a => (Pointed.start {} env).leaves a rfl th) h
  intro w e hothers hturn
  refine ⟨fun a ha th hth => ?_, fun th hf hp a => ?_⟩
  · rcases hturn with ⟨-, hnone⟩ | ⟨hself, hidle⟩
    · rw [hnone] at ha
      cases ha
    · by_cases hf : th = .fetcher
      · subst hf
        cases hjob : w.job .fetcher with
        | done u => exact .done trivial
        | act a' next =>
          rw [hjob] at hidle
          rcases hidle with hnone | hnone
          · rw [hnone] at ha
            cases ha
          · cases hnone
      · exact hothers th hf (fun heq => hth (hself.trans (congrArg some heq.symm))) a
  · have hne : e.thread ≠ some th := by
      intro heq
      rcases hturn with ⟨hself, -⟩ | ⟨hself, -⟩
      · exact hf (Option.some.inj (heq.symm.trans hself))
      · exact hp (Option.some.inj (heq.symm.trans hself))
    rw [job_step_of_ne hne]
    exact hothers th hf hp a

/-- Three packets get their verdicts, and the session is removed on the way. -/
theorem once_always_threePackets :
    Trace.Always step (fun w => ∃ chain, w.Once chain) (start {} idleEnv) threePackets ∧
      Trace.Always step (fun w => w.Going) (start {} idleEnv) threePackets ∧
      (Trace.run step (start {} idleEnv) threePackets).verdicts = [1, 2, 3] := by
  have hfree : Trace.Along step (fun _ e => e.Unmanaged) (start {} idleEnv) threePackets := by
    decide +kernel
  have hbare : Trace.Along step (fun w e => w.bare e) (start {} idleEnv) threePackets := by
    decide +kernel
  have hturn : Trace.Along step InTurn (start {} idleEnv) threePackets := by decide +kernel
  obtain ⟨honce, hgoing⟩ := once_always {} idleEnv threePackets (by decide +kernel)
    (by decide +kernel) (by decide +kernel) (.inl hfree)
  exact ⟨honce, hgoing (Trace.along_and.2 ⟨hbare.mono fun _ _ => handled_of_bare,
    exclusive_of_inTurn hturn⟩), by decide +kernel⟩

/-- The options of the segment have the lengths 2 and 254: from the second one the scan with its
8-bit index comes back to the first. -/
theorem remoteID_cyclic : remoteID idleEnv (segment [5, 2, 5, 254]) = .error .hang := by
  decide +kernel

theorem fetcherTask_cyclic : ∃ next, (fetcherTask idleEnv 1 46 (segment [5, 2, 5, 254]) :
      Job Unit Nat Unit) = .act (.fault .hang) next := by
  unfold fetcherTask
  rw [if_pos (by rfl), if_pos (by decide), remoteID_cyclic]
  exact ⟨_, rfl⟩

def cyclicState : World Unit Nat :=
  (start {} idleEnv).deliver idleEnv 1 46 (segment [5, 2, 5, 254])

/-- The kernel delivers that segment, and the fetcher has `n` turns. -/
def cyclicRun (n : Nat) : List (Event Unit Nat) :=
  .deliver idleEnv 1 46 (segment [5, 2, 5, 254]) ::
    List.replicate n (.act .fetcher (answers [] 0))

theorem job_cyclic : ∃ next, cyclicState.job .fetcher = .act (.fault .hang) next :=
  fetcherTask_cyclic

/-- A turn of the fetcher changes nothing. -/
theorem act_cyclic : cyclicState.act .fetcher (answers [] 0) = cyclicState := by
  obtain ⟨next, hnext⟩ := job_cyclic
  exact act_error (e := .fault .hang) hnext rfl

theorem run_cyclic (n : Nat) : Trace.run step (start {} idleEnv) (cyclicRun n) = cyclicState := by
  change Trace.run step cyclicState (List.replicate n (.act .fetcher (answers [] 0))) = _
  induction n with
  | zero => rfl
  | succ n ih => exact (congrArg (fun w => Trace.run step w _) act_cyclic).trans ih

theorem along_cyclic (n : Nat) :
    Trace.Along step (fun w e => w.Numbered e ∧ w.Fresh e ∧ w.Steady e ∧ e.Unmanaged)
      (start {} idleEnv) (cyclicRun n) := by
  obtain ⟨next, hnext⟩ := job_cyclic
  have hhead : cyclicState.nextOf (.act .fetcher (answers [] 0)) = some (.fault .hang) :=
    congrArg Tree.head? hnext
  refine ⟨⟨⟨by decide, nofun⟩, nofun, nofun, trivial⟩, ?_⟩
  change Trace.Along step _ cyclicState (List.replicate n (.act .fetcher (answers [] 0)))
  induction n with
  | zero => trivial
  | succ n ih =>
    refine ⟨⟨trivial, ?_, ?_, nofun⟩, ?_⟩
    · intro a ha halloc
      cases hhead.symm.trans ha
      cases halloc
    · intro id hid
      rw [hhead] at hid
      cases hid
    · rw [← act_cyclic] at ih
      exact ih

/-- A thread that frees a session which is not there is stuck. -/
theorem not_going_of_frees {A B : Type} [DecidableEq A] [DecidableEq B] {w : World A B}
    (th : Thread) (a : A) (h : (w.job th).head?.bind Act.frees = some a) (ha : w.live a = false)
    (x : Input A B) : ¬ w.Going := by
  intro hgoing
  obtain ⟨e, he, hfrees⟩ := Option.bind_eq_some_iff.1 h
  obtain rfl := Act.eq_of_frees hfrees
  obtain ⟨next, hnext⟩ := exists_next (x := x) he
  obtain ⟨w', r, hperf⟩ := hgoing th _ next hnext x
  simp only [perform, call, ha] at hperf
  cases hperf

/-- The two ends of a connection reset it, and the two processors of the queue find its session; one
of them removes it. -/
def twoProcessors : List (Event Unit Nat) :=
  [.deliver Threads.meshEnv 1 40 bareSyn] ++ List.replicate 6 (fetcher 0) ++
    [.deliver Threads.meshEnv 2 40 Threads.clientReset] ++ List.replicate 8 (fetcher 0) ++
    [.deliver Threads.meshEnv 3 52 Threads.serverReset] ++ List.replicate 9 (fetcher 1) ++
    [.pass ⟨0, false⟩ Threads.meshEnv, .pass ⟨0, true⟩ Threads.meshEnv] ++
    List.replicate 6 (processor true) ++ List.replicate 8 (processor false)
where
  fetcher (calloc : Nat) : Event Unit Nat :=
    .act .fetcher (answers Threads.meshEnv.neighbors calloc)
  processor (deoptimization : Bool) : Event Unit Nat :=
    .act (.processor ⟨0, deoptimization⟩) (answers Threads.meshEnv.neighbors 0)

/-- **There are packets without a verdict**: the fetcher runs forever on that segment, and the
second of two processors that free one session is stuck with its packet. -/
theorem not_going_cyclic :
    (¬ (Trace.run step (start {} idleEnv) (cyclicRun 0)).Going ∧
      ∀ n, Trace.Along step (fun w e => w.Numbered e ∧ w.Fresh e ∧ w.Steady e ∧ e.Unmanaged)
          (start {} idleEnv) (cyclicRun n) ∧
        (Trace.run step (start {} idleEnv) (cyclicRun n)).delivered = [1] ∧
        (Trace.run step (start {} idleEnv) (cyclicRun n)).verdicts = [] ∧
        ∀ q, (Trace.run step (start {} idleEnv) (cyclicRun n)).arrived q = []) ∧
    ¬ (Trace.run step (start {} Threads.meshEnv) twoProcessors).Going ∧
      Trace.Along step (fun w e => w.Numbered e ∧ w.Fresh e ∧ w.Steady e ∧ e.Unmanaged)
        (start {} Threads.meshEnv) twoProcessors ∧
      (Trace.run step (start {} Threads.meshEnv) twoProcessors).delivered = [1, 2, 3] ∧
      (Trace.run step (start {} Threads.meshEnv) twoProcessors).verdicts = [1, 2] ∧
      (Trace.run step (start {} Threads.meshEnv) twoProcessors).hand (.processor ⟨0, true⟩) =
        [3] := by
  refine ⟨⟨fun hgoing => ?_, fun n => ⟨along_cyclic n, ?_⟩⟩,
    not_going_of_frees (.processor ⟨0, true⟩) () (by decide +kernel) (by decide +kernel)
      (answers [] 0), by decide +kernel, by decide +kernel, by decide +kernel, by decide +kernel⟩
  · obtain ⟨next, hnext⟩ := job_cyclic
    obtain ⟨w', r, hperf⟩ := hgoing .fetcher (.fault .hang) next hnext (answers [] 0)
    cases hperf
  · rw [run_cyclic]
    exact ⟨rfl, rfl, fun q => rfl⟩

end World

end Opennop
