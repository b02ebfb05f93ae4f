import Opennop.Buffer.World
import Opennop.Lib.Partition

/-!
# No buffer is lost

The invariant of the buffers: each queue is a chain of its buffers, every buffer that was allocated
is in exactly one queue or in the hand of one thread, or a thread has gone on without it, and the
counter misses only what the threads still owe. `Inv w chain φ` says this of the state `w` with the
contents `chain` of the queues, when thread `th` is in phase `φ th`. There is one lemma for each
kind of action; `Apart` collects what an action of one thread leaves to the others.
-/

namespace Opennop

namespace Phase

variable {B : Type}

def thread : Phase B → Option Thread
  | rest | packet _ | sure _ | fresh _ _ | buffer _ _ | saved _ _ => some .fetcher
  | idle q | has q _ | knows q _ _ | answered q _ | returned q _ => some (.processor q)
  | bootAllocated | bootPool | bootStaging | staged _ | staging _ _ | moving _ | moved _ =>
    some .memorymanager
  | never => none

def owes : Phase B → Nat
  | fresh _ _ => 1
  | staged k | moving k | moved k => k
  | staging k _ => k + 1
  | _ => 0

end Phase

inductive Owner where
  | queue (n : QueueName)
  | thread (th : Thread)
  /-- A thread has gone on without the buffer. -/
  | lost
  deriving DecidableEq

/-- The staging queue has `k` buffers. Its pointers have no meaning while it is empty. -/
structure Buffers.Staged {B : Type} (m : Buffers QueueName B) (chain : QueueName → List B)
    (k : Nat) :
    Prop where
  length : (chain .staging).length = k
  qlen : (m.head .staging).qlen = k
  queue : 0 < k → Queue m .staging (chain .staging)
  locals : chain .locals = []

theorem Buffers.Staged.store {B : Type} [DecidableEq B] {m : Buffers QueueName B} {b : B}
    {chain : QueueName → List B} {k : Nat} {pkt : Packet B} (h : m.Staged chain k)
    (hb : b ∉ chain .staging) : (m.store b pkt).Staged chain k :=
  ⟨h.length, h.qlen, fun hk => (h.queue hk).store hb pkt, h.locals⟩

namespace World

variable {A B : Type}

def parts (w : World A B) (chain : QueueName → List B) : Owner → List B
  | .queue n => chain n
  | .thread th => w.held th
  | .lost => w.lost

/-- What else is known in a phase. -/
def Fact (w : World A B) (chain : QueueName → List B) : Phase B → Prop
  | .sure _ => chain .pool ≠ []
  | .saved i b => w.idOf b = i
  | .knows _ b i => w.idOf b = i
  | .returned _ b => b ∈ w.ever
  | .bootAllocated | .bootPool | .bootStaging => chain .staging = [] ∧ chain .locals = []
  | .staged k => w.mem.Staged chain k
  | .staging k _ => w.mem.Staged chain k
  | .moving k => w.mem.head .staging = {} ∧ chain .staging = [] ∧ (chain .locals).length = k ∧ 0 < k
  | .moved _ => w.mem.head .staging = {} ∧ chain .staging = [] ∧ chain .locals = []
  | _ => True

structure Stands (w : World A B) (chain : QueueName → List B) (th : Thread) (φ : Phase B) :
    Prop where
  thread : φ.thread = some th
  held : w.held th = φ.held
  owed : w.owed th = φ.owes
  loose : ∀ b ∈ w.held th, w.mem.Loose b
  fact : w.Fact chain φ

/-- **The invariant of the buffers.** -/
structure Inv (w : World A B) (chain : QueueName → List B) (φ : Thread → Phase B) : Prop where
  queue : ∀ n, n ≠ .staging → Queue w.mem n (chain n)
  parts : Partition (w.parts chain) w.ever
  stands : ∀ th, w.Stands chain th (φ th)
  count : w.allocated + w.owed .fetcher + w.owed .memorymanager = w.ever.length
  few : w.ever.length < 4294967296
  alloc : ∀ b, b ∈ w.ever ↔ ∃ p, w.mem.heap b = some p
  turns : ∀ q, w.took (.processor q) = w.gave (.processor q) ++ w.held (.processor q)

/-- What an action of `th` leaves to the other threads. -/
structure Apart (th : Thread) (w w' : World A B) (chain chain' : QueueName → List B) : Prop where
  held : ∀ th', th' ≠ th → w'.held th' = w.held th'
  owed : ∀ th', th' ≠ th → w'.owed th' = w.owed th'
  took : ∀ th', th' ≠ th → w'.took th' = w.took th'
  gave : ∀ th', th' ≠ th → w'.gave th' = w.gave th'
  loose : ∀ th', th' ≠ th → ∀ b ∈ w.held th', w.mem.Loose b → w'.mem.Loose b
  idOf : ∀ b ∈ w.ever, b ∉ w.held th → w'.idOf b = w.idOf b
  ever : ∀ b ∈ w.ever, b ∈ w'.ever
  pool : th ≠ .fetcher → chain .pool ≠ [] → chain' .pool ≠ []
  stage : th ≠ .memorymanager → chain' .staging = chain .staging ∧ chain' .locals = chain .locals
  head : th ≠ .memorymanager → w'.mem.head .staging = w.mem.head .staging
  queue : th ≠ .memorymanager → Queue w.mem .staging (chain .staging) →
    Queue w'.mem .staging (chain .staging)

section Frame

variable {w w' : World A B} {chain chain' : QueueName → List B} {φ : Thread → Phase B}
  {th th' : Thread} {φ' : Phase B} {b : B}

theorem idOf_congr (h : w'.mem.content b = w.mem.content b) : w'.idOf b = w.idOf b :=
  congrArg (fun c => (Option.map Prod.fst c).getD 0) h

theorem update_take {X : Type} {f : Thread → List X} (h : f th = []) (x : X) :
    Function.update f th (f th ++ [x]) th = [x] := by
  rw [Function.update_self, h, List.nil_append]

theorem update_put {X : Type} [DecidableEq X] {f : Thread → List X} {x : X} (h : f th = [x]) :
    Function.update f th ((f th).erase x) th = [] := by
  rw [Function.update_self, h, List.erase_cons_head]

theorem Apart.staged (h : Apart th w w' chain chain') (hth : th ≠ .memorymanager) {k : Nat}
    (hs : w.mem.Staged chain k) : w'.mem.Staged chain' k where
  length := by
    rw [(h.stage hth).1]
    exact hs.length
  qlen := by
    rw [h.head hth]
    exact hs.qlen
  queue hk := by
    rw [(h.stage hth).1]
    exact h.queue hth (hs.queue hk)
  locals := (h.stage hth).2.trans hs.locals

theorem Apart.refl (th : Thread) (w : World A B) (chain : QueueName → List B) :
    Apart th w w chain chain :=
  ⟨fun _ _ => rfl, fun _ _ => rfl, fun _ _ => rfl, fun _ _ => rfl, fun _ _ _ _ h => h,
    fun _ _ _ => rfl, fun _ h => h, fun _ h => h, fun _ => ⟨rfl, rfl⟩, fun _ => rfl, fun _ h => h⟩

theorem Stands.frame (h : w.Stands chain th' φ') (ha : Apart th w w' chain chain') (hne : th' ≠ th)
    (hmem : ∀ b ∈ w.held th', b ∈ w.ever ∧ b ∉ w.held th) : w'.Stands chain' th' φ' where
  thread := h.thread
  held := (ha.held th' hne).trans h.held
  owed := (ha.owed th' hne).trans h.owed
  loose b hb := by
    rw [ha.held th' hne] at hb
    exact ha.loose th' hne b hb (h.loose b hb)
  fact := by
    have hth := h.thread
    have hheld := h.held
    have hfact := h.fact
    have hid : ∀ b ∈ φ'.held, w'.idOf b = w.idOf b := by
      intro b hb
      rw [← hheld] at hb
      exact ha.idOf b (hmem b hb).1 (hmem b hb).2
    have hother : ∀ t, φ'.thread = some t → th ≠ t := by
      rintro t ht rfl
      exact hne (Option.some.inj (hth.symm.trans ht))
    -- the phases with a fact, by the thread they belong to
    cases φ' with
    | sure i => exact ha.pool (hother .fetcher rfl) hfact
    | saved i b => exact (hid b (List.mem_singleton_self b)).trans hfact
    | knows q b i => exact (hid b (List.mem_singleton_self b)).trans hfact
    | returned q b => exact ha.ever b hfact
    | bootAllocated | bootPool | bootStaging =>
      have hm := hother .memorymanager rfl
      exact ⟨(ha.stage hm).1.trans hfact.1, (ha.stage hm).2.trans hfact.2⟩
    | staged k | staging k b => exact ha.staged (hother .memorymanager rfl) hfact
    | moving k =>
      have hm := hother .memorymanager rfl
      exact ⟨(ha.head hm).trans hfact.1, (ha.stage hm).1.trans hfact.2.1,
        (congrArg List.length (ha.stage hm).2).trans hfact.2.2.1, hfact.2.2.2⟩
    | moved k =>
      have hm := hother .memorymanager rfl
      exact ⟨(ha.head hm).trans hfact.1, (ha.stage hm).1.trans hfact.2.1,
        (ha.stage hm).2.trans hfact.2.2⟩
    | _ => trivial

namespace Inv

theorem mem_ever (h : w.Inv chain φ) (hb : b ∈ w.held th) : b ∈ w.ever :=
  h.parts.mem_all (.thread th) b hb

theorem not_mem_chain (h : w.Inv chain φ) (hb : b ∈ w.held th) (n : QueueName) : b ∉ chain n :=
  h.parts.not_mem (i := .thread th) (j := .queue n) hb (nofun)

theorem not_mem_held (h : w.Inv chain φ) (hb : b ∈ w.held th) (hne : th' ≠ th) : b ∉ w.held th' :=
  h.parts.not_mem (i := .thread th) (j := .thread th') hb (fun h => hne (Owner.thread.inj h))

theorem chain_disjoint (h : w.Inv chain φ) {n n' : QueueName} (hn : n' ≠ n) (hb : b ∈ chain n') :
    b ∉ chain n :=
  h.parts.not_mem (i := .queue n') (j := .queue n) hb (fun h => hn (Owner.queue.inj h).symm)

/-- **The rule for an action of one thread.** -/
theorem of_apart (h : w.Inv chain φ) (ha : Apart th w w' chain chain')
    (hstands : w'.Stands chain' th φ') (hqueue : ∀ n, n ≠ .staging → Queue w'.mem n (chain' n))
    (hparts : Partition (w'.parts chain') w'.ever)
    (hcount : w'.allocated + w'.owed .fetcher + w'.owed .memorymanager = w'.ever.length)
    (hfew : w'.ever.length < 4294967296) (halloc : ∀ b, b ∈ w'.ever ↔ ∃ p, w'.mem.heap b = some p)
    (hturns : ∀ q, th = .processor q → w'.took th = w'.gave th ++ w'.held th) :
    w'.Inv chain' (Function.update φ th φ') where
  queue := hqueue
  parts := hparts
  stands th' := by
    by_cases hne : th' = th
    · subst hne
      rw [Function.update_self]
      exact hstands
    · rw [Function.update_of_ne hne]
      exact (h.stands th').frame ha hne fun b hb => ⟨h.mem_ever hb, h.not_mem_held hb (Ne.symm hne)⟩
  count := hcount
  few := hfew
  alloc := halloc
  turns q := by
    by_cases hne : Thread.processor q = th
    · subst hne
      exact hturns q rfl
    · rw [ha.took _ hne, ha.gave _ hne, ha.held _ hne]
      exact h.turns q

theorem other (h : w.Inv chain φ) (live : A → Bool) (job : Thread → Job A B Unit) (env : Lane → Env)
    (delivered : List Nat) (hand : Thread → List Nat) (arrived : Lane → List Nat)
    (verdicts : List Nat) :
    { w with live, job, env, delivered, hand, arrived, verdicts }.Inv chain φ :=
  ⟨h.queue, h.parts, fun th' => ⟨(h.stands th').thread, (h.stands th').held, (h.stands th').owed,
    (h.stands th').loose, (h.stands th').fact⟩, h.count, h.few, h.alloc, h.turns⟩

theorem phase (h : w.Inv chain φ) (hth : φ'.thread = some th) (hheld : φ'.held = (φ th).held)
    (howes : φ'.owes = (φ th).owes) (hfact : w.Fact chain φ') :
    w.Inv chain (Function.update φ th φ') := by
  have hst := h.stands th
  refine h.of_apart (Apart.refl th w chain) ⟨hth, hst.held.trans hheld.symm,
    hst.owed.trans howes.symm, hst.loose, hfact⟩ h.queue h.parts h.count h.few h.alloc ?_
  intro q hq
  subst hq
  exact h.turns q

/-- What an operation on queues leaves: only links of buffers in the queue `n` change. -/
theorem apart (h : w.Inv chain φ) {n : QueueName} {ns : List QueueName}
    {bs : List B} (hr : Relinked w.mem w'.mem ns bs) (hbs : ∀ x ∈ bs, x ∈ chain n)
    (hns : th ≠ .memorymanager → .staging ∉ ns ∧ n ≠ .staging ∧ chain' .staging = chain .staging ∧
      chain' .locals = chain .locals)
    (hheld : ∀ th', th' ≠ th → w'.held th' = w.held th')
    (howed : ∀ th', th' ≠ th → w'.owed th' = w.owed th')
    (htook : ∀ th', th' ≠ th → w'.took th' = w.took th')
    (hgave : ∀ th', th' ≠ th → w'.gave th' = w.gave th') (hever : w'.ever = w.ever)
    (hpool : th ≠ .fetcher → chain .pool ≠ [] → chain' .pool ≠ []) :
    Apart th w w' chain chain' where
  held := hheld
  owed := howed
  took := htook
  gave := hgave
  loose th' _ x hx hl := hr.loose (fun hxb => h.not_mem_chain hx n (hbs x hxb)) hl
  idOf x _ _ := by
    unfold idOf
    rw [hr.content x]
  ever x hx := hever ▸ hx
  pool := hpool
  stage hm := (hns hm).2.2
  head hm := hr.head .staging (hns hm).1
  queue hm hq := by
    obtain ⟨hstaging, hn, -⟩ := hns hm
    exact hq.frame hr hstaging fun x hx hxb => h.chain_disjoint hn.symm hx (hbs x hxb)

theorem alloc_relinked (h : w.Inv chain φ) {m : Buffers QueueName B} {ns : List QueueName}
    {bs : List B} (hr : Relinked w.mem m ns bs) (x : B) : x ∈ w.ever ↔ ∃ p, m.heap x = some p := by
  rw [h.alloc x]
  exact ⟨Queue.alloc_of_content hr.content, Queue.alloc_of_content fun y => (hr.content y).symm⟩

theorem queue_update (h : w.Inv chain φ) {n : QueueName} {l : List B} {m : Buffers QueueName B}
    {bs : List B} (hr : Relinked w.mem m [n] bs) (hbs : ∀ x ∈ bs, x ∈ chain n) (hq : Queue m n l)
    (n' : QueueName) (hn' : n' ≠ .staging) : Queue m n' (Function.update chain n l n') := by
  by_cases hne : n' = n
  · subst hne
    rw [Function.update_self]
    exact hq
  · rw [Function.update_of_ne hne]
    refine (h.queue n' hn').frame hr (fun hmem => hne (List.mem_singleton.1 hmem))
      fun x hx hxb => ?_
    exact h.chain_disjoint hne hx (hbs x hxb)

end Inv

end Frame

/-- All buffers of the queue `n` go to the end of `n'`. -/
def shift (chain : QueueName → List B) (n n' : QueueName) : QueueName → List B :=
  Function.update (Function.update chain n' (chain n' ++ chain n)) n []

section Shift

variable {chain : QueueName → List B} {n n' k : QueueName}

variable (chain n n') in
theorem shift_source : shift chain n n' n = [] := by
  unfold shift
  rw [Function.update_self]

theorem shift_target (h : n' ≠ n) : shift chain n n' n' = chain n' ++ chain n := by
  unfold shift
  rw [Function.update_of_ne h, Function.update_self]

theorem shift_other (h : k ≠ n) (h' : k ≠ n') : shift chain n n' k = chain k := by
  unfold shift
  rw [Function.update_of_ne h, Function.update_of_ne h']

end Shift

/-! ## The actions -/

section Actions

variable [DecidableEq B] {w : World A B} {chain : QueueName → List B} {φ : Thread → Phase B}
  {th : Thread} {φ' : Phase B} {b : B} {n : QueueName} {l : List B} {mem : Buffers QueueName B}

theorem idOf_store_of_ne {x : B} (h : x ≠ b) (pkt : Packet B) :
    (w.setMem (w.mem.store b pkt)).idOf x = w.idOf x := by
  simp [idOf, Buffers.content, setMem, Buffers.heap_store_of_ne h]

theorem idOf_store (pkt : Packet B) : (w.setMem (w.mem.store b pkt)).idOf b = pkt.id := by
  simp [idOf, Buffers.content, setMem]

namespace Inv

/-- **A thread writes** to the buffer it has in hand. -/
theorem write (h : w.Inv chain φ) (hb : b ∈ w.held th) {pkt : Packet B} (hpkt : pkt.next = none)
    (hth : φ'.thread = some th) (hheld : φ'.held = (φ th).held) (howes : φ'.owes = (φ th).owes)
    (hfact : (w.setMem (w.mem.store b pkt)).Fact chain φ') :
    (w.setMem (w.mem.store b pkt)).Inv chain (Function.update φ th φ') := by
  have hst := h.stands th
  have hever := h.mem_ever hb
  have hloose : ∀ x, w.mem.Loose x → (w.mem.store b pkt).Loose x := by
    intro x hx
    by_cases hxb : x = b
    · subst hxb
      exact ⟨pkt, Buffers.heap_store_self pkt, hpkt⟩
    · exact hx.store hxb pkt
  have hqueue : ∀ n, Queue w.mem n (chain n) → Queue (w.mem.store b pkt) n (chain n) :=
    fun n hn => hn.store (h.not_mem_chain hb n) pkt
  have ha : Apart th w (w.setMem (w.mem.store b pkt)) chain chain :=
    { Apart.refl th w chain with
      loose := fun _ _ x _ => hloose x
      idOf := fun x _ hx => idOf_store_of_ne (ne_of_mem_of_not_mem hb hx).symm pkt
      queue := fun _ => hqueue .staging }
  refine h.of_apart ha ⟨hth, hst.held.trans hheld.symm, hst.owed.trans howes.symm,
    fun x hx => hloose x (hst.loose x hx), hfact⟩ (fun n hn => hqueue n (h.queue n hn))
      h.parts h.count
    h.few (fun x => ?_) ?_
  · by_cases hxb : x = b
    · subst hxb
      exact ⟨fun _ => ⟨pkt, Buffers.heap_store_self pkt⟩, fun _ => hever⟩
    · change x ∈ w.ever ↔ ∃ p, (w.mem.store b pkt).heap x = some p
      rw [Buffers.heap_store_of_ne hxb]
      exact h.alloc x
  · intro q hq
    subst hq
    exact h.turns q

/-- **A thread takes a buffer** from a queue. -/
theorem receive (h : w.Inv chain φ) (hn : n ≠ .staging ∧ n ≠ .locals)
    (hpool : n = .pool → th = .fetcher) (hchain : chain n = b :: l) (hheld : w.held th = []) :
    ∃ mem, dequeuePacket w.mem n = .ok (mem, some b) ∧ (∀ x, mem.content x = w.mem.content x) ∧
      ∀ φ' : Phase B, φ'.thread = some th → φ'.held = [b] → φ'.owes = w.owed th →
        (∀ (w : World A B) chain, w.Fact chain φ') →
        ((w.receive th n b).setMem mem).Inv (Function.update chain n l)
        (Function.update φ th φ') := by
  have hq : Queue w.mem n (b :: l) := hchain ▸ h.queue n hn.1
  have hlen : l.length + 1 < 4294967296 := by
    have hle := h.parts.length_le (.queue n)
    change (chain n).length ≤ _ at hle
    rw [hchain, List.length_cons] at hle
    exact lt_of_le_of_lt hle h.few
  obtain ⟨mem, hmem, hq', hloose, hr⟩ := hq.dequeuePacket hlen
  refine ⟨mem, hmem, hr.content, fun φ' hth hφheld howes hfact => ?_⟩
  have hbs : ∀ x ∈ [b], x ∈ chain n := fun x hx => by
    rw [hchain, List.mem_singleton.1 hx]
    exact List.mem_cons_self
  have hheld' : Function.update w.held th (w.held th ++ [b]) th = [b] := update_take hheld b
  have ha : Apart th w ((w.receive th n b).setMem mem) chain (Function.update chain n l) := by
    refine h.apart hr hbs (fun _ => ⟨?_, hn.1, ?_, ?_⟩) (fun _ hne => Function.update_of_ne hne ..)
      (fun _ _ => rfl) (fun _ hne => Function.update_of_ne hne ..) (fun _ _ => rfl) rfl
        fun hf hne => ?_
    · exact fun hst => hn.1 (List.mem_singleton.1 hst).symm
    · exact Function.update_of_ne hn.1.symm l chain
    · exact Function.update_of_ne hn.2.symm l chain
    · rw [Function.update_of_ne fun hp => hf (hpool hp.symm)]
      exact hne
  refine h.of_apart ha ⟨hth, hheld'.trans hφheld.symm, howes.symm, fun x hx => ?_, hfact _ _⟩
    (h.queue_update hr hbs hq') ?_ h.count h.few (h.alloc_relinked hr) fun q hq => ?_
  · change x ∈ Function.update w.held th (w.held th ++ [b]) th at hx
    rw [hheld', List.mem_singleton] at hx
    exact hx ▸ hloose
  · refine h.parts.move (i := .queue n) (j := .thread th) (x := b) (nofun) ?_ ?_ fun o ho ho' => ?_
    · change (chain n).Perm (b :: Function.update chain n l n)
      rw [hchain, Function.update_self]
    · change (Function.update w.held th (w.held th ++ [b]) th).Perm (b :: w.held th)
      rw [hheld', hheld]
    · cases o with
      | queue n' => exact Function.update_of_ne (fun hn' => ho (congrArg Owner.queue hn')) l chain
      | thread th' => exact Function.update_of_ne (fun hth' => ho' (congrArg Owner.thread hth')) ..
      | lost => rfl
  · change Function.update w.took th (w.took th ++ [b]) th =
      w.gave th ++ Function.update w.held th (w.held th ++ [b]) th
    subst hq
    rw [hheld', Function.update_self, h.turns q, hheld, List.append_nil]

theorem queuePacket (h : w.Inv chain φ) (hb : b ∈ w.held th)
    (hq : Queue w.mem n (chain n) ∨ chain n = [] ∧ (w.mem.head n).qlen = 0) :
    ∃ mem, queuePacket w.mem n b = .ok mem ∧ Queue mem n (chain n ++ [b]) ∧
      Relinked w.mem mem [n] (chain n) := by
  have hloose := (h.stands th).loose b hb
  rcases hq with hq | ⟨hnil, hqlen⟩
  · have hlen : (chain n).length + 1 ≤ w.ever.length :=
      h.parts.length_lt (i := .thread th) (j := .queue n) hb (nofun)
    exact hq.queuePacket hloose (h.not_mem_chain hb n) (lt_of_le_of_lt hlen h.few)
  · rw [hnil]
    exact queuePacket_empty hqlen hloose

/-- **A thread puts its buffer** into a queue. -/
theorem release (h : w.Inv chain φ) (hheld : w.held th = [b]) (hq : Queue mem n (chain n ++ [b]))
    (hr : Relinked w.mem mem [n] (chain n)) (hth : φ'.thread = some th) (hφheld : φ'.held = [])
    (howes : φ'.owes = w.owed th)
    (hfact : ((w.release th n b).setMem mem).Fact (Function.update chain n (chain n ++ [b])) φ')
    (hstage : th ≠ .memorymanager → n ≠ .staging ∧ n ≠ .locals)
    (hgive : ∀ q, th = .processor q → n = .pool) :
    ((w.release th n b).setMem mem).Inv (Function.update chain n (chain n ++ [b]))
      (Function.update φ th φ') := by
  have hheld' : Function.update w.held th ((w.held th).erase b) th = [] := update_put hheld
  have hgave : ∀ th', th' ≠ th → ((w.release th n b).setMem mem).gave th' = w.gave th' := by
    intro th' hne
    cases n with
    | pool => exact Function.update_of_ne hne ..
    | _ => rfl
  have ha : Apart th w ((w.release th n b).setMem mem) chain
      (Function.update chain n (chain n ++ [b])) := by
    refine h.apart hr (fun x hx => hx) (fun hm => ⟨?_, (hstage hm).1, ?_, ?_⟩)
      (fun _ hne => Function.update_of_ne hne ..) (fun _ _ => rfl) (fun _ _ => rfl) hgave rfl
        fun _ hne => ?_
    · exact fun hst => (hstage hm).1 (List.mem_singleton.1 hst).symm
    · exact Function.update_of_ne (hstage hm).1.symm _ chain
    · exact Function.update_of_ne (hstage hm).2.symm _ chain
    · by_cases hpool : QueueName.pool = n
      · subst hpool
        rw [Function.update_self]
        exact List.append_ne_nil_of_left_ne_nil hne [b]
      · rw [Function.update_of_ne hpool]
        exact hne
  refine h.of_apart ha ⟨hth, hheld'.trans hφheld.symm, howes.symm, fun x hx => ?_, hfact⟩
    (h.queue_update hr (fun x hx => hx) hq) ?_ h.count h.few (h.alloc_relinked hr) fun q hp => ?_
  · change x ∈ Function.update w.held th ((w.held th).erase b) th at hx
    rw [hheld'] at hx
    cases hx
  · refine h.parts.move (i := .thread th) (j := .queue n) (x := b) (nofun) ?_ ?_ fun o ho ho' => ?_
    · change (w.held th).Perm (b :: Function.update w.held th ((w.held th).erase b) th)
      rw [hheld', hheld]
    · change (Function.update chain n (chain n ++ [b]) n).Perm (b :: chain n)
      rw [Function.update_self]
      exact List.perm_append_singleton b (chain n)
    · cases o with
      | queue n' => exact Function.update_of_ne (fun hn' => ho' (congrArg Owner.queue hn')) _ chain
      | thread th' => exact Function.update_of_ne (fun hth' => ho (congrArg Owner.thread hth')) ..
      | lost => rfl
  · obtain rfl := hgive q hp
    change w.took th = Function.update w.gave th (w.gave th ++ [b]) th ++
      Function.update w.held th ((w.held th).erase b) th
    subst hp
    rw [hheld', Function.update_self, h.turns q, hheld, List.append_nil]

/-- **A thread allocates a buffer.** -/
theorem allocate (h : w.Inv chain φ) (hfresh : w.mem.heap b = none) (hheld : w.held th = [])
    (hroom : w.ever.length + 1 < 4294967296) (howner : th = .fetcher ∨ th = .memorymanager)
    (hth : φ'.thread = some th) (hφheld : φ'.held = [b]) (howes : φ'.owes = w.owed th + 1)
    (hfact : (w.allocate th b).Fact chain φ') :
    (w.allocate th b).Inv chain (Function.update φ th φ') := by
  have hheld' : Function.update w.held th (w.held th ++ [b]) th = [b] := update_take hheld b
  have hnew : b ∉ w.ever := by
    intro hb
    obtain ⟨p, hp⟩ := (h.alloc b).1 hb
    rw [hfresh] at hp
    cases hp
  have hloose : ∀ x, w.mem.Loose x → (newpacket w.mem b).Loose x := by
    intro x hx
    refine hx.store (fun hxb => ?_) {}
    obtain ⟨p, hp, -⟩ := hx
    rw [hxb, hfresh] at hp
    cases hp
  have hqueue : ∀ n, Queue w.mem n (chain n) → Queue (newpacket w.mem b) n (chain n) := by
    intro n hn
    exact hn.store (fun hb => hnew (h.parts.mem_all (.queue n) b hb)) {}
  have ha : Apart th w (w.allocate th b) chain chain :=
    { Apart.refl th w chain with
      held := fun _ hne => Function.update_of_ne hne ..
      owed := fun _ hne => Function.update_of_ne hne ..
      loose := fun _ _ x _ => hloose x
      idOf := fun x hx _ => idOf_store_of_ne (ne_of_mem_of_not_mem hx hnew) {}
      ever := fun x hx => List.mem_append_left [b] hx
      queue := fun _ => hqueue .staging }
  refine h.of_apart ha ⟨hth, hheld'.trans hφheld.symm, ?_, fun x hx => ?_, hfact⟩
    (fun n hn => hqueue n (h.queue n hn)) ?_ ?_ ?_ (fun x => ?_) fun q hq => ?_
  · exact (Function.update_self th _ w.owed).trans howes.symm
  · change x ∈ Function.update w.held th (w.held th ++ [b]) th at hx
    rw [hheld', List.mem_singleton] at hx
    exact ⟨{}, hx ▸ Buffers.heap_store_self {}, rfl⟩
  · refine h.parts.insert (j := .thread th) hnew ?_ fun o ho => ?_
    · change (Function.update w.held th (w.held th ++ [b]) th).Perm (b :: w.held th)
      rw [hheld', hheld]
    · cases o with
      | queue n' => rfl
      | thread th' => exact Function.update_of_ne (fun hth' => ho (congrArg Owner.thread hth')) ..
      | lost => rfl
  · have hcount := h.count
    change w.allocated + Function.update w.owed th (w.owed th + 1) .fetcher +
      Function.update w.owed th (w.owed th + 1) .memorymanager = (w.ever ++ [b]).length
    rw [List.length_append, List.length_singleton, ← hcount]
    have hne : Thread.fetcher ≠ .memorymanager := nofun
    rcases howner with rfl | rfl
    · rw [Function.update_self, Function.update_of_ne hne.symm]
      omega
    · rw [Function.update_self, Function.update_of_ne hne]
      omega
  · change (w.ever ++ [b]).length < 4294967296
    rw [List.length_append]
    exact hroom
  · change x ∈ w.ever ++ [b] ↔ ∃ p, (w.mem.store b {}).heap x = some p
    rw [List.mem_append, List.mem_singleton]
    by_cases hxb : x = b
    · subst hxb
      simp
    · rw [Buffers.heap_store_of_ne hxb, ← h.alloc x]
      simp [hxb]
  · subst hq
    rcases howner with howner | howner <;> cases howner

omit [DecidableEq B] in
/-- **The fetcher goes on without its buffer.** -/
theorem forget (h : w.Inv chain φ) (hheld : w.held .fetcher = [b]) (howed : w.owed .fetcher = 0) :
    (w.forget .fetcher).Inv chain (Function.update φ .fetcher .rest) := by
  have hheld' : Function.update w.held .fetcher [] .fetcher = [] := Function.update_self ..
  have hother : ∀ th', th' ≠ Thread.fetcher → Function.update w.held .fetcher [] th' = w.held th' :=
    fun th' hne => Function.update_of_ne hne ..
  refine h.of_apart { Apart.refl .fetcher w chain with held := hother }
    ⟨rfl, hheld', howed, fun x hx => ?_, trivial⟩ h.queue ?_ h.count h.few h.alloc
    fun q hq => (nomatch hq)
  · change x ∈ Function.update w.held .fetcher [] .fetcher at hx
    rw [hheld'] at hx
    cases hx
  · refine h.parts.move (i := .thread .fetcher) (j := .lost) (x := b) (nofun) ?_ ?_
      fun o ho ho' => ?_
    · change (w.held .fetcher).Perm (b :: Function.update w.held .fetcher [] .fetcher)
      rw [hheld', hheld]
    · change (w.lost ++ w.held .fetcher).Perm (b :: w.lost)
      rw [hheld]
      exact List.perm_append_singleton b w.lost
    · cases o with
      | queue n => rfl
      | thread th' => exact hother th' fun hth => ho (congrArg Owner.thread hth)
      | lost => exact absurd rfl ho'

omit [DecidableEq B] in
/-- **A thread counts** the buffers it has allocated. -/
theorem account (h : w.Inv chain φ) (howner : th = .fetcher ∨ th = .memorymanager)
    (hth : φ'.thread = some th) (hφheld : φ'.held = (φ th).held) (howes : φ'.owes = 0)
    (hfact : w.Fact chain φ') :
    ({ w with
      allocated := (w.allocated + w.owed th) % 4294967296
      owed := Function.update w.owed th (w.owed th - w.owed th) } : World A B).Inv chain
      (Function.update φ th φ') := by
  have hst := h.stands th
  have hother : ∀ th', th' ≠ th →
      Function.update w.owed th (w.owed th - w.owed th) th' = w.owed th' :=
    fun th' hne => Function.update_of_ne hne _ w.owed
  have hself : Function.update w.owed th (w.owed th - w.owed th) th = 0 := by
    rw [Function.update_self, Nat.sub_self]
  have hcount := h.count
  have hfew := h.few
  refine h.of_apart { Apart.refl th w chain with owed := hother }
    ⟨hth, hst.held.trans hφheld.symm, hself.trans howes.symm, hst.loose, ?_⟩ h.queue h.parts ?_ hfew
    h.alloc fun q hq => ?_
  · exact hfact
  · change (w.allocated + w.owed th) % 4294967296 + Function.update w.owed th
      (w.owed th - w.owed th)
      .fetcher + Function.update w.owed th (w.owed th - w.owed th) .memorymanager = w.ever.length
    rcases howner with rfl | rfl
    · rw [hself, hother .memorymanager (nofun)]
      omega
    · rw [hself, hother .fetcher (nofun)]
      omega
  · subst hq
    exact h.turns q

/-! ### The memory manager -/

omit [DecidableEq B] in
theorem manage (h : w.Inv chain φ) {chain' : QueueName → List B} {ns : List QueueName} {bs : List B}
    (hr : Relinked w.mem mem ns bs) (hbs : ∀ x ∈ bs, x ∈ chain n)
    (hpool : chain .pool ≠ [] → chain' .pool ≠ [])
    (hqueue : ∀ n, n ≠ .staging → Queue mem n (chain' n))
    (hparts : Partition ((w.setMem mem).parts chain') w.ever)
    (hth : φ'.thread = some .memorymanager) (hheld : φ'.held = (φ .memorymanager).held)
    (howes : φ'.owes = (φ .memorymanager).owes) (hhand : (φ .memorymanager).held = [])
    (hfact : (w.setMem mem).Fact chain' φ') :
    (w.setMem mem).Inv chain' (Function.update φ .memorymanager φ') := by
  have hst := h.stands .memorymanager
  have ha : Apart .memorymanager w (w.setMem mem) chain chain' :=
    h.apart hr hbs (fun hm => absurd rfl hm) (fun _ _ => rfl) (fun _ _ => rfl) (fun _ _ => rfl)
      (fun _ _ => rfl) rfl fun _ => hpool
  refine h.of_apart ha ⟨hth, hst.held.trans hheld.symm, hst.owed.trans howes.symm,
    fun x hx => ?_, hfact⟩
    hqueue hparts h.count h.few (h.alloc_relinked hr) fun q hq => (nomatch hq)
  change x ∈ w.held .memorymanager at hx
  rw [hst.held, hhand] at hx
  cases hx

omit [DecidableEq B] in
theorem resetStaging (h : w.Inv chain φ) (hφ : φ .memorymanager = .bootStaging) :
    (w.setMem (w.mem.setHead .staging { w.mem.head .staging with qlen := 0 })).Inv chain
      (Function.update φ .memorymanager (.staged 0)) := by
  have hfact := (h.stands .memorymanager).fact
  rw [hφ] at hfact
  have hr : Relinked w.mem (w.mem.setHead .staging { w.mem.head .staging with qlen := 0 })
      [.staging] [] := by
    refine ⟨fun n hn => ?_, fun _ _ => rfl, fun _ => rfl⟩
    exact Buffers.head_setHead_of_ne _ _ _ fun h => hn (List.mem_singleton.2 h)
  refine h.manage (n := .staging) hr (fun x hx => (nomatch hx)) (fun hne => hne)
    (fun n hn => ?_) h.parts rfl
    (by rw [hφ]; rfl) (by rw [hφ]; rfl) (by rw [hφ]; rfl) ?_
  · refine (h.queue n hn).frame hr (fun hst => hn (List.mem_singleton.1 hst))
      fun x _ hx => (nomatch hx)
  · refine ⟨?_, ?_, fun h0 => absurd h0 (Nat.lt_irrefl 0), hfact.2⟩
    · rw [hfact.1]
      rfl
    · exact congrArg PacketHead.qlen (Buffers.head_setHead w.mem .staging _)

omit [DecidableEq B] in
theorem shifted (h : w.Inv chain φ) {n' : QueueName} (hn : n' ≠ n) {ns : List QueueName}
    {bs : List B} (hr : Relinked w.mem mem ns bs) (hns : ∀ k ∈ ns, k = n ∨ k = n')
    (hbs : ∀ x ∈ bs, x ∈ chain n') (hsource : n ≠ .staging → Queue mem n [])
    (htarget : Queue mem n' (chain n' ++ chain n)) (hpool : n ≠ .pool)
    (hth : φ'.thread = some .memorymanager) (hheld : φ'.held = (φ .memorymanager).held)
    (howes : φ'.owes = (φ .memorymanager).owes) (hhand : (φ .memorymanager).held = [])
    (hfact : (w.setMem mem).Fact (shift chain n n') φ') :
    (w.setMem mem).Inv (shift chain n n') (Function.update φ .memorymanager φ') := by
  refine h.manage hr hbs (fun hne => ?_) (fun k hk => ?_) ?_ hth hheld howes hhand hfact
  · by_cases hk : QueueName.pool = n'
    · subst hk
      rw [shift_target hn]
      exact List.append_ne_nil_of_left_ne_nil hne _
    · rw [shift_other hpool.symm hk]
      exact hne
  · by_cases hkn : k = n
    · subst hkn
      rw [shift_source]
      exact hsource hk
    · by_cases hkn' : k = n'
      · subst hkn'
        rw [shift_target hn]
        exact htarget
      · rw [shift_other hkn hkn']
        refine (h.queue k hk).frame hr (fun hmem => (hns k hmem).elim hkn hkn') fun x hx hxb => ?_
        exact h.chain_disjoint hkn' hx (hbs x hxb)
  · refine h.parts.moveAll (i := .queue n) (j := .queue n') (fun he => hn (Owner.queue.inj he).symm)
      (shift_source chain n n') (shift_target hn) fun o ho ho' => ?_
    cases o with
    | queue k =>
      exact shift_other (fun hk => ho (congrArg Owner.queue hk)) fun hk =>
        ho' (congrArg Owner.queue hk)
    | thread th' => rfl
    | lost => rfl

omit [DecidableEq B] in
theorem takeQueued (h : w.Inv chain φ) {k : Nat} (hk : 0 < k) (hφ : φ .memorymanager = .staged k) :
    (w.setMem (Opennop.takeQueued w.mem .staging .locals)).Inv (shift chain .staging .locals)
      (Function.update φ .memorymanager (.moving k)) := by
  have hst := (h.stands .memorymanager).fact
  rw [hφ] at hst
  obtain ⟨hlength, -, hqueue, hlocals⟩ := hst
  have hne : QueueName.locals ≠ .staging := nofun
  obtain ⟨hq, -, hr⟩ := (hqueue hk).takeQueued hne
  have htarget : chain .locals ++ chain .staging =
    chain .staging := by rw [hlocals, List.nil_append]
  refine h.shifted hne hr (fun n hn => ?_) (fun x hx => (nomatch hx))
    (fun hst => absurd rfl hst) ?_ (nofun)
    rfl (by rw [hφ]; rfl) (by rw [hφ]; rfl) (by rw [hφ]; rfl) ⟨?_, shift_source chain _ _, ?_, hk⟩
  · rwa [List.mem_cons, List.mem_singleton] at hn
  · rw [htarget]
    exact hq
  · exact Buffers.head_setHead _ _ _
  · rw [shift_target hne, htarget]
    exact hlength

/-- The staged buffers are added to the pool, and their number is what the second section
returns. -/
theorem addQueued (h : w.Inv chain φ) {k : Nat} (hφ : φ .memorymanager = .moving k) :
    ∃ mem, Opennop.addQueued w.mem .locals .pool = .ok (mem, k) ∧
      (∀ x, mem.content x = w.mem.content x) ∧
      (w.setMem mem).Inv (shift chain .locals .pool)
      (Function.update φ .memorymanager (.moved k)) := by
  have hst := (h.stands .memorymanager).fact
  rw [hφ] at hst
  obtain ⟨hhead, hstaging, hlength, hk⟩ := hst
  have hnil : chain .locals ≠ [] := by
    intro h0
    rw [h0] at hlength
    exact absurd hlength.symm (Nat.ne_of_gt hk)
  have hne : QueueName.locals ≠ .pool := nofun
  have hlen : (chain .pool ++ chain .locals).length < 4294967296 :=
    lt_of_le_of_lt (h.parts.length_add_le (i := .queue .pool) (j := .queue .locals) (nofun)) h.few
  obtain ⟨mem, hmem, hq, hq', hr⟩ :=
    (h.queue .locals (nofun)).addQueued (h.queue .pool (nofun)) hne hnil
    (fun x hx => h.chain_disjoint hne.symm hx) hlen
  rw [hlength] at hmem
  refine ⟨mem, hmem, hr.content, ?_⟩
  refine h.shifted hne.symm hr (fun n hn => ?_) (fun x hx => hx) (fun _ => hq') hq hne rfl
    (by rw [hφ]; rfl)
    (by rw [hφ]; rfl) (by rw [hφ]; rfl) ⟨?_, ?_, shift_source chain _ _⟩
  · rw [List.mem_cons, List.mem_singleton] at hn
    exact hn.symm
  · change mem.head .staging = {}
    rw [hr.head .staging (by simp)]
    exact hhead
  · have hother : shift chain .locals .pool .staging = chain .staging := shift_other (nofun) (nofun)
    exact hother.trans hstaging

end Inv

end Actions

end World

end Opennop
