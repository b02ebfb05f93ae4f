import Opennop.Buffer.Packets
import Opennop.Buffer.Programs

/-!
# One action of one thread

`Good w chain φ` collects what holds in every state: the invariant of the buffers, the invariant of
the packets when their numbers are distinct and the fetcher has not gone on without one, and that
each thread keeps to the protocol from its phase on. `Good.act` is the step lemma for an action,
`Good.step` for any step.

Two conditions on the action are not met by themselves. `Calm`: the memory manager sets the counter
of buffers and the length of the pool to zero only where they are zero. `Room`: the number of
buffers fits into the counter.
-/

namespace Opennop

namespace World

variable {A B : Type}

def Ends : Thread → Phase B → Prop
  | .fetcher => Job.FetcherEnds
  | .processor q => Job.ProcessorEnds q
  | .memorymanager => Job.ManagerEnds

/-- The packets have different numbers, and no thread has gone on without its packet. -/
def Orderly (w : World A B) : Prop := w.delivered.Nodup ∧ w.lost = []

/-- The fetcher, in phase `φ`, has not allocated more than one buffer for each packet with a
number. -/
structure Budget (w : World A B) (φ : Phase B) : Prop where
  spent : w.ever.length ≤ (w.delivered.filter (· ≠ 0)).length
  left : ∀ i, φ = .packet i → i ≠ 0 → w.ever.length + 1 ≤ (w.delivered.filter (· ≠ 0)).length

/-- **What holds in every state.** The last field is about runs in which the memory manager does not
start. -/
structure Good (w : World A B) (chain : QueueName → List B) (φ : Thread → Phase B) : Prop where
  inv : w.Inv chain φ
  packets : w.Orderly → w.Packets chain φ
  follows : ∀ th, Tree.Follows buffers (fun _ => Ends th) (φ th) (w.job th)
  budget : φ .memorymanager = .bootAllocated → w.Budget (φ .fetcher)

def Sound (w : World A B) (φ : Thread → Phase B) : Prop :=
  ∃ chain, w.Inv chain φ ∧ (w.Orderly → w.Packets chain φ)

theorem update_lane {chain : QueueName → List B} {n : QueueName} (hn : ∀ q, QueueName.lane q ≠ n)
    (l : List B) (q : Lane) : Function.update chain n l (.lane q) = chain (.lane q) :=
  Function.update_of_ne (hn q) l chain

section Actions

variable [DecidableEq A] [DecidableEq B] {w w' : World A B} {chain : QueueName → List B}
  {φ : Thread → Phase B} {th : Thread} {x : Input A B} {φ' : Phase B} {b : B} {n : QueueName}
  {mem : Buffers QueueName B}

theorem perform_dequeue_some (h : dequeuePacket w.mem n = .ok (mem, some b)) :
    w.perform th x (.dequeuePacket n) = .ok ((w.receive th n b).setMem mem, some b) := by
  simp [perform, h]

theorem perform_dequeue_none (h : dequeuePacket w.mem n = .ok (mem, none)) :
    w.perform th x (.dequeuePacket n) = .ok (w.setMem mem, none) := by
  simp [perform, h]

theorem perform_queue (h : queuePacket w.mem n b = .ok mem) :
    w.perform th x (.queuePacket n b) = .ok ((w.release th n b).setMem mem, ()) := by
  simp [perform, h]

theorem perform_add {k : Nat} (h : addQueued w.mem .locals .pool = .ok (mem, k)) :
    w.perform th x .addQueued = .ok (w.setMem mem, k) := by
  simp [perform, h]

theorem perform_wipe {pkt : Packet B} (h : w.mem.heap b = some pkt) :
    w.perform th x (.wipe b) = .ok (w.setMem (w.mem.store b {}), ()) := by
  simp [perform, Buffers.load, h]

theorem perform_save {pkt : Packet B} {i ret : Nat} {p : Mem} (h : w.mem.heap b = some pkt) :
    w.perform th x (.savePacket b i ret p) =
      .ok (w.setMem (w.mem.store b (savePacket pkt i ret p)), ()) := by
  simp [perform, Buffers.load, h]

theorem perform_load {pkt : Packet B} (h : w.mem.heap b = some pkt) :
    w.perform th x (.load b) = .ok (w, (pkt.id, pkt.data)) := by
  simp [perform, Buffers.load, h]

theorem perform_readFlags {pkt : Packet B} (h : w.mem.heap b = some pkt) :
    w.perform th x (.readFlags b) = .ok (w, pkt.data) := by
  simp [perform, Buffers.load, h]

theorem perform_store {pkt : Packet B} {p : Mem} (h : w.mem.heap b = some pkt) :
    w.perform th x (.store b p) = .ok (w.setMem (w.mem.store b { pkt with data := p }), ()) := by
  simp [perform, Buffers.load, h]

theorem perform_resetAllocated (h : w.allocated = 0) :
    w.perform th x .resetAllocated = .ok (w, ()) := by
  have heq : { w with allocated := 0 } = w := by rw [← h]
  exact congrArg (fun v => Except.ok (v, ())) heq

theorem perform_resetPool (h : (w.mem.head .pool).qlen = 0) :
    w.perform th x (.resetQlen .pool) = .ok (w, ()) := by
  have heq : w.mem.setHead .pool { w.mem.head .pool with qlen := 0 } = w.mem := by
    rw [← h]
    unfold Buffers.setHead
    rw [Function.update_eq_self]
  exact congrArg (fun m => Except.ok (w.setMem m, ())) heq

omit [DecidableEq A] [DecidableEq B] in
theorem idOf_eq {pkt : Packet B} (h : w.mem.heap b = some pkt) : w.idOf b = pkt.id := by
  simp [idOf, Buffers.content, h]

omit [DecidableEq A] [DecidableEq B] in
theorem Inv.thread_eq (h : w.Inv chain φ) (hφ : φ th = φ') {th' : Thread}
    (hth : φ'.thread = some th') :
    th = th' := by
  have hst := (h.stands th).thread
  rw [hφ, hth] at hst
  exact (Option.some.inj hst).symm

omit [DecidableEq A] [DecidableEq B] in
theorem Packets.other (hp : w.Packets chain φ) (live : A → Bool) (job : Thread → Job A B Unit)
    (env : Lane → Env) : { w with live, job, env }.Packets chain φ := by
  refine ⟨fun th => (hp.hand th).trans ?_, ?_, hp.order⟩
  · cases φ th <;> rfl
  · have hplaces : { w with live, job, env }.places chain = w.places chain := by
      funext pl
      cases pl <;> rfl
    rw [hplaces]
    exact hp.places

omit [DecidableEq A] [DecidableEq B] in
theorem Sound.other (h : w.Sound φ) (live : A → Bool) (job : Thread → Job A B Unit)
    (env : Lane → Env) :
    { w with live, job, env }.Sound φ := by
  obtain ⟨chain, hinv, hpackets⟩ := h
  exact ⟨chain, hinv.other live job env _ _ _ _,
    fun horderly => (hpackets horderly).other live job env⟩

omit [DecidableEq B] in
theorem call_eq {c : Call A} {r : c.Result} (h : w.call x c = .ok (w', r)) :
    ∃ live, w' = { w with live } := by
  cases c with
  | getsession k =>
    cases h
    exact ⟨_, rfl⟩
  | insertsession k =>
    simp only [call] at h
    split at h
    · cases h
      exact ⟨_, rfl⟩
    · cases h
      exact ⟨_, rfl⟩
  | read a | modify a f | clearsession a =>
    simp only [call] at h
    split at h
    · cases h
      exact ⟨_, rfl⟩
    · cases h

theorem verify_true {id : OpennopId} (h : w.perform th x (.verify id) = .ok (w', true)) :
    w' = w := by
  simp only [perform] at h
  split at h
  · cases h
    rfl
  · cases h

theorem verify_false {id : OpennopId} (h : w.perform th x (.verify id) = .ok (w', false)) :
    w' = w.forget th := by
  simp only [perform] at h
  split at h
  · cases h
  · cases h
    rfl

namespace Sound

variable (h : w.Inv chain φ) (hp : w.Orderly → w.Packets chain φ)

include h hp

omit [DecidableEq A] [DecidableEq B] in
theorem tells {ψ : Phase B} (hφ : φ th = ψ) (hth : φ'.thread = some th) (hheld : φ'.held = ψ.held)
    (howes : φ'.owes = ψ.owes) (hfact : w.Fact chain φ') (hpk : w.packets φ' = w.packets ψ) :
    w.Sound (Function.update φ th φ') := by
  subst hφ
  refine ⟨chain, h.phase hth hheld howes hfact, fun horderly => ?_⟩
  exact (hp horderly).quiet h (fun _ _ _ => rfl) (fun _ => rfl) rfl rfl rfl rfl hpk

omit [DecidableEq A] in
theorem writes {ψ : Phase B} {pkt : Packet B} (hφ : φ th = ψ) (hb : ψ.held = [b])
    (hnext : pkt.next = none) (hth : φ'.thread = some th) (hheld : φ'.held = ψ.held)
    (howes : φ'.owes = ψ.owes) (hfact : (w.setMem (w.mem.store b pkt)).Fact chain φ')
    (hpk : (w.setMem (w.mem.store b pkt)).packets φ' = w.packets ψ) :
    (w.setMem (w.mem.store b pkt)).Sound (Function.update φ th φ') := by
  subst hφ
  have hmem : b ∈ w.held th := by
    rw [(h.stands th).held, hb]
    exact List.mem_singleton_self b
  refine ⟨chain, h.write hmem hnext hth hheld howes hfact, fun horderly => ?_⟩
  refine (hp horderly).quiet h (fun y _ hy => ?_) (fun _ => rfl) rfl rfl rfl rfl hpk
  exact idOf_store_of_ne (ne_of_mem_of_not_mem hmem hy).symm pkt

theorem takes {i : Nat} (hφ : φ .fetcher = .sure i) :
    ∃ b w', w.perform .fetcher x (.dequeuePacket .pool) = .ok (w', some b) ∧
      w'.Sound (Function.update φ .fetcher (.buffer i b)) := by
  have hst := h.stands .fetcher
  rw [hφ] at hst
  obtain ⟨b, l, hchain⟩ := List.exists_cons_of_ne_nil hst.fact
  obtain ⟨mem, hmem, hcontent, hinv⟩ := h.receive (n := .pool) ⟨nofun, nofun⟩ (fun _ => rfl) hchain
    hst.held
  refine ⟨b, _, perform_dequeue_some hmem, _,
    hinv (.buffer i b) rfl rfl hst.owed.symm fun _ _ => trivial, fun horderly => ?_⟩
  refine (hp horderly).quiet h (fun y _ _ => ?_) (fun q => ?_) rfl rfl rfl rfl ?_
  · exact idOf_congr (hcontent y)
  · exact update_lane (n := .pool) (nofun) l q
  · rw [hφ]
    rfl

omit [DecidableEq A] in
theorem allocates {ψ : Phase B} (hφ : φ th = ψ) (hfresh : w.mem.heap b = none)
    (hroom : w.ever.length + 1 < 4294967296) (howner : th = .fetcher ∨ th = .memorymanager)
    (hheld : ψ.held = []) (hth : φ'.thread = some th) (hφheld : φ'.held = [b])
    (howes : φ'.owes = ψ.owes + 1) (hfact : (w.allocate th b).Fact chain φ')
    (hpk : (w.allocate th b).packets φ' = w.packets ψ) :
    (w.allocate th b).Sound (Function.update φ th φ') := by
  subst hφ
  have hst := h.stands th
  have hnew : ∀ y ∈ w.ever, y ≠ b := by
    rintro y hy rfl
    obtain ⟨p, hpy⟩ := (h.alloc y).1 hy
    rw [hfresh] at hpy
    cases hpy
  refine ⟨chain, ?_, fun horderly => ?_⟩
  · refine h.allocate hfresh (hst.held.trans hheld) hroom howner hth hφheld ?_ hfact
    rw [howes, hst.owed]
  · refine (hp horderly).quiet h (fun y hy _ => ?_) (fun _ => rfl) rfl rfl rfl rfl hpk
    exact idOf_store_of_ne (hnew y hy) {}

theorem accounts (ψ' : Phase B) {ψ : Phase B} (hφ : φ th = ψ)
    (howner : th = .fetcher ∨ th = .memorymanager) (hth : ψ'.thread = some th)
    (hφheld : ψ'.held = ψ.held) (howes : ψ'.owes = 0) (hfact : w.Fact chain ψ')
    (hpk : w.packets ψ' = w.packets ψ) :
    ∃ w', w.perform th x (.account ψ.owes) = .ok (w', ()) ∧ w'.Sound (Function.update φ th ψ') := by
  subst hφ
  refine ⟨_, rfl, chain, ?_, fun horderly => ?_⟩
  · rw [← (h.stands th).owed]
    exact h.account howner hth hφheld howes hfact
  · refine (hp horderly).quiet h (fun _ _ _ => rfl) (fun _ => rfl) rfl rfl rfl rfl ?_
    rw [← hpk]
    cases ψ' <;> rfl

theorem handsOver {i : Nat} {q : Lane} (hφ : φ .fetcher = .saved i b) :
    ∃ w', w.perform .fetcher x (.queuePacket (.lane q) b) = .ok (w', ()) ∧
      w'.Sound (Function.update φ .fetcher .rest) := by
  have hst := h.stands .fetcher
  rw [hφ] at hst
  have hheld : w.held .fetcher = [b] := hst.held
  have hb : b ∈ w.held .fetcher := by
    rw [hheld]
    exact List.mem_singleton_self b
  obtain ⟨mem, hmem, hq, hr⟩ := h.queuePacket hb (.inl (h.queue (.lane q) (nofun)))
  refine ⟨_, perform_queue hmem, _, h.release hheld hq hr rfl rfl hst.owed.symm trivial
    (fun _ => ⟨nofun, nofun⟩) (fun q' hq' => nomatch hq'), fun horderly => ?_⟩
  have hpk := hp horderly
  have hhand := hpk.hand .fetcher
  rw [hφ] at hhand
  exact hpk.handOver h hhand hst.fact hr.content

theorem answers (ψ' : Phase B) {ψ : Phase B} {i : Nat} {v : Verdict} (hφ : φ th = ψ)
    (hth : ψ'.thread = some th) (hheld : ψ'.held = ψ.held) (howes : ψ'.owes = ψ.owes)
    (hfact : w.Fact chain ψ') (hi : w.packets ψ = [i]) (hpk : w.packets ψ' = []) :
    ∃ w', w.perform th x (.setVerdict i v) = .ok (w', ()) ∧ w'.Sound (Function.update φ th ψ') := by
  subst hφ
  refine ⟨_, rfl, chain, (h.phase hth hheld howes hfact).other _ _ _ _ _ _ _, fun horderly => ?_⟩
  have hpackets := hp horderly
  exact hpackets.answer h ((hpackets.hand th).trans hi) hpk

theorem dequeues {q : Lane} (hφ : φ (.processor q) = .idle q) :
    (∃ b w', w.perform (.processor q) x (.dequeuePacket (.lane q)) = .ok (w', some b) ∧
      w'.Sound (Function.update φ (.processor q) (.has q b))) ∨
    w.perform (.processor q) x (.dequeuePacket (.lane q)) = .ok (w, none) := by
  have hst := h.stands (.processor q)
  rw [hφ] at hst
  cases hchain : chain (.lane q) with
  | nil =>
    have hq := h.queue (.lane q) (nofun)
    rw [hchain] at hq
    exact .inr (perform_dequeue_none hq.dequeuePacket_nil)
  | cons b l =>
    obtain ⟨mem, hmem, hcontent, hinv⟩ := h.receive (n := .lane q) ⟨nofun, nofun⟩
      (fun hn => nomatch hn) hchain hst.held
    refine .inl ⟨b, _, perform_dequeue_some hmem, _, hinv (.has q b) rfl rfl hst.owed.symm
      fun _ _ => trivial, fun horderly => ?_⟩
    have hpk := hp horderly
    have hhand := hpk.hand (.processor q)
    rw [hφ] at hhand
    exact hpk.receive h hchain hhand hcontent

theorem puts {q : Lane} (hφ : φ (.processor q) = .answered q b) :
    ∃ w', w.perform (.processor q) x (.queuePacket .pool b) = .ok (w', ()) ∧
      w'.Sound (Function.update φ (.processor q) (.returned q b)) := by
  have hst := h.stands (.processor q)
  rw [hφ] at hst
  have hheld : w.held (.processor q) = [b] := hst.held
  have hb : b ∈ w.held (.processor q) := by
    rw [hheld]
    exact List.mem_singleton_self b
  obtain ⟨mem, hmem, hq, hr⟩ := h.queuePacket hb (.inl (h.queue .pool (nofun)))
  refine ⟨_, perform_queue hmem, _, h.release hheld hq hr rfl rfl hst.owed.symm (h.mem_ever hb)
    (fun _ => ⟨nofun, nofun⟩) (fun _ _ => rfl), fun horderly => ?_⟩
  refine (hp horderly).quiet h (fun y _ _ => ?_) (fun q' => ?_) rfl rfl rfl rfl ?_
  · exact idOf_congr (hr.content y)
  · exact update_lane (n := .pool) (nofun) _ q'
  · rw [hφ]
    rfl

theorem stages {k : Nat} (hφ : φ .memorymanager = .staging k b) :
    ∃ w', w.perform .memorymanager x (.queuePacket .staging b) = .ok (w', ()) ∧
      w'.Sound (Function.update φ .memorymanager (.staged (k + 1))) := by
  have hst := h.stands .memorymanager
  rw [hφ] at hst
  have hheld : w.held .memorymanager = [b] := hst.held
  have hb : b ∈ w.held .memorymanager := by
    rw [hheld]
    exact List.mem_singleton_self b
  have hstaged : w.mem.Staged chain k := hst.fact
  have hqueue : Queue w.mem .staging (chain .staging) ∨
      chain .staging = [] ∧ (w.mem.head .staging).qlen = 0 := by
    rcases Nat.eq_zero_or_pos k with rfl | hk
    · exact .inr ⟨List.length_eq_zero_iff.1 hstaged.length, hstaged.qlen⟩
    · exact .inl (hstaged.queue hk)
  obtain ⟨mem, hmem, hq, hr⟩ := h.queuePacket hb hqueue
  have hchain : Function.update chain .staging (chain .staging ++ [b]) .staging =
      chain .staging ++ [b] :=
    Function.update_self _ _ chain
  have hlength : (chain .staging ++ [b]).length = k + 1 := by
    rw [List.length_append, hstaged.length, List.length_singleton]
  have hfact : mem.Staged (Function.update chain .staging (chain .staging ++ [b])) (k + 1) := by
    refine ⟨?_, ?_, fun _ => ?_, ?_⟩
    · rw [hchain, hlength]
    · rw [hq.qlen, hlength]
    · rw [hchain]
      exact hq
    · have hne : QueueName.locals ≠ .staging := nofun
      exact (Function.update_of_ne hne _ chain).trans hstaged.locals
  refine ⟨_, perform_queue hmem, _, h.release hheld hq hr rfl rfl hst.owed.symm hfact
    (fun hm => absurd rfl hm) (fun _ hq' => nomatch hq'), fun horderly => ?_⟩
  refine (hp horderly).quiet h (fun y _ _ => ?_) (fun q' => ?_) rfl rfl rfl rfl ?_
  · exact idOf_congr (hr.content y)
  · exact update_lane (n := .staging) (nofun) _ q'
  · rw [hφ]
    rfl

theorem adds {k : Nat} (hφ : φ .memorymanager = .moving k) :
    ∃ w', w.perform .memorymanager x .addQueued = .ok (w', k) ∧
      w'.Sound (Function.update φ .memorymanager (.moved k)) := by
  obtain ⟨mem, hmem, hcontent, hinv⟩ := h.addQueued hφ
  refine ⟨_, perform_add hmem, _, hinv, fun horderly => ?_⟩
  refine (hp horderly).quiet h (fun y _ _ => ?_) (fun q => ?_) rfl rfl rfl rfl (by rw [hφ]; rfl)
  · exact idOf_congr (hcontent y)
  · have hne : QueueName.lane q ≠ .locals := nofun
    exact shift_other hne (nofun)

omit h hp in
theorem of_perform {e : Act A B} {r r₀ : e.Result} {w₀ : World A B}
    (hperf : w.perform th x e = .ok (w', r)) (h₀ : w.perform th x e = .ok (w₀, r₀)) :
    w' = w₀ ∧ r = r₀ := by
  rw [h₀] at hperf
  exact ⟨(Prod.mk.inj (Except.ok.inj hperf)).1.symm, (Prod.mk.inj (Except.ok.inj hperf)).2.symm⟩

omit h hp in
theorem of_exists {e : Act A B} {r r₀ : e.Result} {P : World A B → Prop}
    (hperf : w.perform th x e = .ok (w', r)) (h₀ : ∃ w₀, w.perform th x e = .ok (w₀, r₀) ∧
    P w₀) : P w' := by
  obtain ⟨w₀, h₀, hP⟩ := h₀
  obtain ⟨rfl, -⟩ := of_perform hperf h₀
  exact hP

omit [DecidableEq A] [DecidableEq B] hp in
theorem forgets {i : Nat} (hφ : φ .fetcher = .saved i b) :
    (w.forget .fetcher).Sound (Function.update φ .fetcher .rest) := by
  have hst := h.stands .fetcher
  rw [hφ] at hst
  have hheld : w.held .fetcher = [b] := hst.held
  refine ⟨chain, h.forget hheld hst.owed, fun horderly => ?_⟩
  have hlost : w.lost ++ w.held .fetcher = [] := horderly.2
  rw [hheld] at hlost
  exact absurd hlost (List.append_ne_nil_of_right_ne_nil w.lost (nofun))

omit [DecidableEq A] [DecidableEq B] in
theorem stays {ψ : Phase B} (hφ : φ th = ψ) : w.Sound (Function.update φ th ψ) := by
  rw [← hφ, Function.update_eq_self]
  exact ⟨chain, h, hp⟩

/-- **The step lemma for an action of a thread.** -/
theorem perform {e : Act A B} {r : e.Result} (hfresh : e.allocates → w.mem.heap x.calloc = none)
    (hroom : e.allocates → w.ever.length + 1 < 4294967296)
    (hcalm : (e.resetsAllocated → w.allocated = 0) ∧ (e.resetsPool → (w.mem.head .pool).qlen = 0))
    (hperf : w.perform th x e = .ok (w', r)) (hgoes : Goes (φ th) e r φ') :
    w'.Sound (Function.update φ th φ') := by
  have hst := h.stands th
  generalize hφ : φ th = ψ at hgoes
  rw [hφ] at hst
  cases hgoes with
  | @call φ c r =>
    obtain ⟨live, rfl⟩ := call_eq hperf
    exact (stays h hp hφ).other live w.job w.env
  -- the fetcher
  | low =>
    obtain ⟨rfl, -⟩ := of_perform hperf rfl
    exact stays h hp hφ
  | @filled i n hn =>
    obtain ⟨rfl, hr⟩ := of_perform hperf rfl
    have hpool : chain .pool ≠ [] := by
      intro hnil
      have hqlen := (h.queue .pool (nofun)).qlen
      rw [hnil, List.length_nil] at hqlen
      exact absurd (hr.trans hqlen) (Nat.ne_of_gt hn)
    exact tells h hp hφ hst.thread rfl rfl hpool rfl
  | take =>
    obtain rfl := h.thread_eq hφ rfl
    obtain ⟨b, w₀, h₀, hsound⟩ := takes (x := x) h hp hφ
    obtain ⟨rfl, hr⟩ := of_perform hperf h₀
    exact Option.some.inj hr ▸ hsound
  | missing =>
    obtain rfl := h.thread_eq hφ rfl
    obtain ⟨b, w₀, h₀, -⟩ := takes (x := x) h hp hφ
    obtain ⟨-, hr⟩ := of_perform hperf h₀
    cases hr
  | allocate =>
    obtain rfl := h.thread_eq hφ rfl
    obtain ⟨rfl, rfl⟩ := of_perform hperf rfl
    exact allocates h hp hφ (hfresh rfl) (hroom rfl) (.inl rfl) rfl rfl rfl rfl trivial rfl
  | @account i b =>
    obtain rfl := h.thread_eq hφ rfl
    exact of_exists hperf (accounts h hp (.buffer i b) hφ (.inl rfl) rfl rfl rfl trivial rfl)
  | @wipe i b =>
    obtain ⟨pkt, hpkt, -⟩ := hst.loose b (hst.held ▸ List.mem_singleton_self b)
    obtain ⟨rfl, -⟩ := of_perform hperf (perform_wipe hpkt)
    exact writes h hp hφ rfl rfl hst.thread rfl rfl trivial rfl
  | @save i ret b p =>
    obtain ⟨pkt, hpkt, hnext⟩ := hst.loose b (hst.held ▸ List.mem_singleton_self b)
    obtain ⟨rfl, -⟩ := of_perform hperf (perform_save hpkt)
    exact writes h hp hφ rfl hnext hst.thread rfl rfl (idOf_store _) rfl
  | handOver =>
    obtain rfl := h.thread_eq hφ rfl
    exact of_exists hperf (handsOver h hp hφ)
  | confirmed =>
    obtain rfl := verify_true hperf
    exact stays h hp hφ
  | forgotten =>
    obtain rfl := h.thread_eq hφ rfl
    obtain rfl := verify_false hperf
    exact forgets h hφ
  | answer hv =>
    exact of_exists hperf (answers h hp .rest hφ hst.thread rfl rfl trivial rfl rfl)
  -- a processor
  | nothing =>
    obtain rfl := h.thread_eq hφ rfl
    rcases dequeues (x := x) h hp hφ with ⟨b, w₀, h₀, -⟩ | h₀
    · obtain ⟨-, hr⟩ := of_perform hperf h₀
      cases hr
    · obtain ⟨rfl, -⟩ := of_perform hperf h₀
      exact stays h hp hφ
  | dequeue =>
    obtain rfl := h.thread_eq hφ rfl
    rcases dequeues (x := x) h hp hφ with ⟨b, w₀, h₀, hsound⟩ | h₀
    · obtain ⟨rfl, hr⟩ := of_perform hperf h₀
      exact Option.some.inj hr ▸ hsound
    · obtain ⟨-, hr⟩ := of_perform hperf h₀
      cases hr
  | @load q b i p =>
    obtain ⟨pkt, hpkt, -⟩ := hst.loose b (hst.held ▸ List.mem_singleton_self b)
    obtain ⟨rfl, hr⟩ := of_perform hperf (perform_load hpkt)
    have hid := (idOf_eq hpkt).trans (Prod.mk.inj hr).1.symm
    exact tells h hp hφ hst.thread rfl rfl hid (congrArg (fun j => [j]) hid.symm)
  | @store q b i p =>
    obtain ⟨pkt, hpkt, hnext⟩ := hst.loose b (hst.held ▸ List.mem_singleton_self b)
    obtain ⟨rfl, -⟩ := of_perform hperf (perform_store hpkt)
    have hid : pkt.id = i := (idOf_eq hpkt).symm.trans hst.fact
    exact writes h hp hφ rfl hnext hst.thread rfl rfl ((idOf_store _).trans hid) rfl
  | @verdict q b i v hv =>
    exact of_exists hperf (answers h hp (.answered q b) hφ hst.thread rfl rfl trivial rfl rfl)
  | put =>
    obtain rfl := h.thread_eq hφ rfl
    exact of_exists hperf (puts h hp hφ)
  | @readFlags q b p =>
    obtain ⟨pkt, hpkt⟩ := (h.alloc b).1 hst.fact
    obtain ⟨rfl, -⟩ := of_perform hperf (perform_readFlags hpkt)
    exact stays h hp hφ
  -- the memory manager
  | resetAllocated =>
    obtain ⟨rfl, -⟩ := of_perform hperf (perform_resetAllocated (hcalm.1 rfl))
    exact tells h hp hφ hst.thread rfl rfl hst.fact rfl
  | resetPool =>
    obtain ⟨rfl, -⟩ := of_perform hperf (perform_resetPool (hcalm.2 rfl))
    exact tells h hp hφ hst.thread rfl rfl hst.fact rfl
  | resetStaging =>
    obtain rfl := h.thread_eq hφ rfl
    obtain ⟨rfl, -⟩ := of_perform hperf rfl
    refine ⟨chain, h.resetStaging hφ, fun horderly => ?_⟩
    exact (hp horderly).quiet h (fun _ _ _ => rfl) (fun _ => rfl) rfl rfl rfl rfl (by rw [hφ]; rfl)
  | level =>
    obtain ⟨rfl, -⟩ := of_perform hperf rfl
    exact stays h hp hφ
  | new =>
    obtain rfl := h.thread_eq hφ rfl
    obtain ⟨rfl, rfl⟩ := of_perform hperf rfl
    refine allocates h hp hφ (hfresh rfl) (hroom rfl) (.inr rfl) rfl rfl rfl rfl ?_ rfl
    refine hst.fact.store fun hb => ?_
    obtain ⟨pkt, hpkt⟩ := (h.alloc _).1 (h.parts.mem_all (.queue .staging) _ hb)
    rw [hfresh rfl] at hpkt
    cases hpkt
  | stage =>
    obtain rfl := h.thread_eq hφ rfl
    exact of_exists hperf (stages h hp hφ)
  | takeQueued hk =>
    obtain rfl := h.thread_eq hφ rfl
    obtain ⟨rfl, -⟩ := of_perform hperf rfl
    refine ⟨_, h.takeQueued hk hφ, fun horderly => ?_⟩
    exact (hp horderly).quiet h (fun _ _ _ => rfl) (fun _ => shift_other (nofun) (nofun))
      rfl rfl rfl rfl
      (by rw [hφ]; rfl)
  | addQueued =>
    obtain rfl := h.thread_eq hφ rfl
    exact of_exists hperf (adds h hp hφ)
  | miscounted hn =>
    obtain rfl := h.thread_eq hφ rfl
    obtain ⟨w₀, h₀, -⟩ := adds (x := x) h hp hφ
    exact absurd (of_perform hperf h₀).2 hn
  | @count k =>
    obtain rfl := h.thread_eq hφ rfl
    have hfact : w.mem.Staged chain 0 := by
      obtain ⟨hhead, hstaging, hlocals⟩ := hst.fact
      exact ⟨congrArg List.length hstaging, congrArg PacketHead.qlen hhead,
        fun h0 => (nomatch h0), hlocals⟩
    exact of_exists hperf (accounts h hp (.staged 0) hφ (.inr rfl) rfl rfl rfl hfact rfl)
  | never => cases hst.thread

end Sound

end Actions

/-! ## Any step -/

section Steps

variable [DecidableEq A] [DecidableEq B] {w w' : World A B} {chain : QueueName → List B}
  {φ : Thread → Phase B} {th : Thread} {x : Input A B}

omit [DecidableEq A] [DecidableEq B] in
theorem exists_next {a : Act A B} (h : a ∈ w.nextOf (.act th x)) :
    ∃ next, w.job th = .act a next := by
  change (w.job th).head? = some a at h
  cases hjob : w.job th with
  | done u =>
    rw [hjob] at h
    cases h
  | act e next =>
    rw [hjob] at h
    cases h
    exact ⟨next, rfl⟩

theorem act_done {u : Unit} (hjob : w.job th = .done u) : w.act th x = w := by
  unfold act
  rw [hjob]

theorem act_ok {e : Act A B} {next : e.Result → Job A B Unit} {r : e.Result}
    (hjob : w.job th = .act e next) (hperf : w.perform th x e = .ok (w', r)) :
    w.act th x = { w' with job := Function.update w'.job th (next r) } := by
  unfold act
  rw [hjob]
  simp only [hperf]

theorem act_error {e : Act A B} {next : e.Result → Job A B Unit} {f : Fault}
    (hjob : w.job th = .act e next) (hperf : w.perform th x e = .error f) : w.act th x = w := by
  unfold act
  rw [hjob]
  simp only [hperf]

/-- What an action of a thread changes of the jobs, the packets delivered, the lists of buffers and
the sessions. -/
structure Effect (x : Input A B) (e : Act A B) (w w' : World A B) : Prop where
  job : w'.job = w.job
  env : w'.env = w.env
  delivered : w'.delivered = w.delivered
  ever : w'.ever = w.ever ∨ e = .newpacket ∧ w'.ever = w.ever ++ [x.calloc]
  lost : w'.lost = w.lost ∨ ∃ id, e = .verify id ∧ verifyNeighborInDomain x.neighbors id ≠ true
  live : w'.live = w.live ∨ ∃ c, e = .call c

omit [DecidableEq A] [DecidableEq B] in
theorem Effect.of_ok {X : Type} {e : Act A B} {w₀ : World A B} {r r₀ : X}
    (h : (Except.ok (w₀, r₀) : Exec (World A B × X)) = .ok (w', r)) (h₀ : Effect x e w w₀) :
    Effect x e w w' := by
  obtain ⟨rfl, -⟩ := Prod.mk.inj (Except.ok.inj h)
  exact h₀

theorem effect_perform {e : Act A B} {r : e.Result} (h : w.perform th x e = .ok (w', r)) :
    Effect x e w w' := by
  cases e with
  | dequeuePacket n =>
    obtain ⟨⟨mem, o⟩, -, hret⟩ := bind_eq_ok.1 h
    cases o with
    | none => exact .of_ok hret ⟨rfl, rfl, rfl, .inl rfl, .inl rfl, .inl rfl⟩
    | some b => exact .of_ok hret ⟨rfl, rfl, rfl, .inl rfl, .inl rfl, .inl rfl⟩
  | queuePacket n b =>
    obtain ⟨mem, -, hret⟩ := bind_eq_ok.1 h
    exact .of_ok hret ⟨rfl, rfl, rfl, .inl rfl, .inl rfl, .inl rfl⟩
  | wipe b | savePacket b id ret p | load b | readFlags b | store b p =>
    obtain ⟨pkt, -, hret⟩ := bind_eq_ok.1 h
    exact .of_ok hret ⟨rfl, rfl, rfl, .inl rfl, .inl rfl, .inl rfl⟩
  | addQueued =>
    obtain ⟨⟨mem, k⟩, -, hret⟩ := bind_eq_ok.1 h
    exact .of_ok hret ⟨rfl, rfl, rfl, .inl rfl, .inl rfl, .inl rfl⟩
  | fault e => cases h
  | call c =>
    obtain ⟨live, rfl⟩ := call_eq h
    exact ⟨rfl, rfl, rfl, .inl rfl, .inl rfl, .inr ⟨c, rfl⟩⟩
  | newpacket => exact .of_ok h ⟨rfl, rfl, rfl, .inr ⟨rfl, rfl⟩, .inl rfl, .inl rfl⟩
  | verify id =>
    simp only [perform] at h
    split at h
    · exact .of_ok h ⟨rfl, rfl, rfl, .inl rfl, .inl rfl, .inl rfl⟩
    · next hfalse => exact .of_ok h ⟨rfl, rfl, rfl, .inl rfl, .inr ⟨id, rfl, hfalse⟩, .inl rfl⟩
  | _ => exact .of_ok h ⟨rfl, rfl, rfl, .inl rfl, .inl rfl, .inl rfl⟩

omit [DecidableEq A] [DecidableEq B] in
theorem update_fetcher_memorymanager (φ : Thread → Phase B) (φ' : Phase B) :
    Function.update φ .fetcher φ' .memorymanager = φ .memorymanager := by
  have hne : Thread.memorymanager ≠ .fetcher := nofun
  exact Function.update_of_ne hne φ' φ

omit [DecidableEq A] [DecidableEq B] in
/-- The fetcher does not come back to the beginning. -/
theorem Goes.packet_inv {ψ : Phase B} {e : Act A B} {r : e.Result} {i : Nat}
    (h : Goes ψ e r (.packet i)) : ψ = .packet i := by
  cases h <;> rfl

omit [DecidableEq A] [DecidableEq B] in
/-- The memory manager starts once. -/
theorem Goes.boot_inv {ψ : Phase B} {e : Act A B} {r : e.Result} (h : Goes ψ e r .bootAllocated) :
    ψ = .bootAllocated := by
  cases h
  rfl

namespace Good

omit [DecidableEq A] [DecidableEq B] in
theorem of_sound {φ' : Phase B} {job : Job A B Unit} (h : w.Good chain φ)
    (hs : w'.Sound (Function.update φ th φ')) (hjob : w'.job = Function.update w.job th job)
    (hfollows : Tree.Follows buffers (fun _ => Ends th) φ' job)
    (hbudget : Function.update φ th φ' .memorymanager = .bootAllocated →
      w'.Budget (Function.update φ th φ' .fetcher)) :
    ∃ chain φ, w'.Good chain φ := by
  obtain ⟨chain', hinv, hpackets⟩ := hs
  refine ⟨chain', _, hinv, hpackets, fun th' => ?_, hbudget⟩
  rw [hjob]
  by_cases hne : th' = th
  · subst hne
    rw [Function.update_self, Function.update_self]
    exact hfollows
  · rw [Function.update_of_ne hne, Function.update_of_ne hne]
    exact h.follows th'

omit [DecidableEq A] [DecidableEq B] in
theorem budget_of_ever {φ' : Phase B} (h : w.Good chain φ) (hever : w'.ever = w.ever)
    (hdelivered : w'.delivered = w.delivered)
    (hpacket : ∀ i, th = .fetcher → φ' = .packet i → φ th = .packet i)
    (hboot : th = .memorymanager → φ' = .bootAllocated → φ th = .bootAllocated)
    (hm : Function.update φ th φ' .memorymanager = .bootAllocated) :
    w'.Budget (Function.update φ th φ' .fetcher) := by
  have hm' : φ .memorymanager = .bootAllocated := by
    by_cases hth : Thread.memorymanager = th
    · subst hth
      rw [Function.update_self] at hm
      exact hboot rfl hm
    · rwa [Function.update_of_ne hth] at hm
  have hb := h.budget hm'
  refine ⟨?_, fun i hi hi0 => ?_⟩
  · rw [hever, hdelivered]
    exact hb.spent
  · rw [hever, hdelivered]
    by_cases hth : Thread.fetcher = th
    · subst hth
      rw [Function.update_self] at hi
      exact hb.left i (hpacket i rfl hi) hi0
    · rw [Function.update_of_ne hth] at hi
      exact hb.left i hi hi0

theorem budget_perform {e : Act A B} {r : e.Result} {φ' : Phase B} (h : w.Good chain φ)
    (hperf : w.perform th x e = .ok (w', r)) (hgoes : Goes (φ th) e r φ')
    (hm : Function.update φ th φ' .memorymanager = .bootAllocated) :
    w'.Budget (Function.update φ th φ' .fetcher) := by
  have hdelivered := (effect_perform hperf).delivered
  rcases (effect_perform hperf).ever with hever | ⟨rfl, hever⟩
  · refine h.budget_of_ever hever hdelivered (fun i _ hi => ?_) (fun _ hb => ?_) hm
    · exact Goes.packet_inv (hi ▸ hgoes)
    · exact Goes.boot_inv (hb ▸ hgoes)
  · generalize hφ : φ th = ψ at hgoes
    cases hgoes with
    | @allocate i b hi =>
      obtain rfl := h.inv.thread_eq hφ rfl
      have hb := h.budget ((update_fetcher_memorymanager φ _).symm.trans hm)
      refine ⟨?_, fun j hj => ?_⟩
      · rw [hever, hdelivered, List.length_append]
        exact hb.left i hφ hi
      · rw [Function.update_self] at hj
        cases hj
    | new =>
      obtain rfl := h.inv.thread_eq hφ rfl
      rw [Function.update_self] at hm
      cases hm

/-- **The step lemma for actions.** -/
theorem act (h : w.Good chain φ) (hfresh : w.Fresh (.act th x)) (hroom : w.Room (.act th x))
    (hcalm : w.Calm (.act th x)) : ∃ chain φ, (w.act th x).Good chain φ := by
  have hfollows := h.follows th
  cases hjob : w.job th with
  | done u =>
    rw [act_done hjob]
    exact ⟨chain, φ, h⟩
  | act e next =>
    rw [hjob] at hfollows
    cases hperf : w.perform th x e with
    | error f =>
      rw [act_error hjob hperf]
      exact ⟨chain, φ, h⟩
    | ok res =>
      obtain ⟨w', r⟩ := res
      rw [act_ok hjob hperf]
      obtain ⟨φ', hgoes, hfollows'⟩ := hfollows.next r
      have hnext : e ∈ w.nextOf (.act th x) := congrArg Tree.head? hjob
      have hs :=
        Sound.perform h.inv h.packets (fun ha => hfresh e hnext ha x.calloc rfl) (hroom e hnext)
        (hcalm e hnext) hperf hgoes
      refine h.of_sound (hs.other w'.live _ w'.env) ?_ hfollows' fun hm => ?_
      · exact congrArg (fun j => Function.update j th (next r)) (effect_perform hperf).job
      · have hb := h.budget_perform hperf hgoes hm
        exact ⟨hb.spent, hb.left⟩

omit [DecidableEq A] [DecidableEq B] in
theorem ne_never (h : w.Good chain φ) (th : Thread) : φ th ≠ .never := by
  intro hφ
  have hth := (h.inv.stands th).thread
  rw [hφ] at hth
  cases hth

omit [DecidableEq A] [DecidableEq B] in
theorem ends {u : Unit} (h : w.Good chain φ) (hjob : w.job th = .done u) : Ends th (φ th) := by
  have hfollows := h.follows th
  rw [hjob] at hfollows
  exact hfollows.post

omit [DecidableEq A] [DecidableEq B] in
/-- **The kernel delivers a packet.** -/
theorem deliver (h : w.Good chain φ) (env : Env) (id ret : Nat) (p : Mem) :
    ∃ chain φ, (w.deliver env id ret p).Good chain φ := by
  unfold World.deliver
  cases hjob : w.job .fetcher with
  | act e next => exact ⟨chain, φ, h⟩
  | done u =>
    have hφ : φ .fetcher = .rest := by
      rcases h.ends hjob with hφ | hφ
      · exact hφ
      · exact absurd hφ (h.ne_never .fetcher)
    have hinv : w.Inv chain (Function.update φ .fetcher (.packet id)) :=
      h.inv.phase rfl (by rw [hφ]; rfl) (by rw [hφ]; rfl) trivial
    refine h.of_sound ⟨chain, hinv.other _ _ _ _ _ _ _, fun horderly => ?_⟩ rfl
      ((Job.follows_fetcherTask (F := False) env id ret p nofun).buffers fun _ _ h => h)
      fun hm => ?_
    rotate_left
    · have hb := h.budget ((update_fetcher_memorymanager φ _).symm.trans hm)
      refine ⟨?_, fun i hi hi0 => ?_⟩
      · exact hb.spent.trans (List.Sublist.length_le ((List.sublist_append_left _ _).filter _))
      · rw [Function.update_self] at hi
        obtain rfl := Phase.packet.inj hi
        change w.ever.length + 1 ≤ ((w.delivered ++ [id]).filter (· ≠ 0)).length
        rw [List.filter_append, List.filter_cons_of_pos (by simpa using hi0), List.length_append]
        exact Nat.add_le_add_right hb.spent 1
    have hnew : w.delivered.Nodup ∧ id ∉ w.delivered := by
      have hnodup : (w.delivered ++ [id]).Nodup := horderly.1
      rw [List.nodup_append_comm] at hnodup
      exact ⟨(List.nodup_cons.1 hnodup).2, (List.nodup_cons.1 hnodup).1⟩
    have hp := h.packets ⟨hnew.1, horderly.2⟩
    have hhand := hp.hand .fetcher
    rw [hφ] at hhand
    exact hp.deliver h.inv hhand hnew.2 _

omit [DecidableEq A] [DecidableEq B] in
/-- **A processor begins a pass.** -/
theorem pass (h : w.Good chain φ) (q : Lane) (env : Env) :
    ∃ chain φ, (w.pass q env).Good chain φ := by
  unfold World.pass
  cases hjob : w.job (.processor q) with
  | act e next => exact ⟨chain, φ, h⟩
  | done u =>
    have hs : w.Sound (Function.update φ (.processor q) (.idle q)) := by
      rcases h.ends hjob with hφ | ⟨b, hφ⟩
      · exact Sound.tells h.inv h.packets hφ rfl rfl rfl trivial rfl
      · exact Sound.tells h.inv h.packets hφ rfl rfl rfl trivial rfl
    refine h.of_sound (hs.other _ _ _) rfl
      ((Job.follows_workerTask env q).buffers fun _ _ => id) fun hm => ?_
    exact h.budget_of_ever rfl rfl (fun _ hth => (nomatch hth)) (fun hth => nomatch hth) hm

omit [DecidableEq A] [DecidableEq B] in
/-- **The memory manager begins a pass.** -/
theorem refill (h : w.Good chain φ) : ∃ chain φ, w.refill.Good chain φ := by
  unfold World.refill
  cases hjob : w.job .memorymanager with
  | act e next => exact ⟨chain, φ, h⟩
  | done u =>
    have hφ : φ .memorymanager = .staged 0 := by
      rcases h.ends hjob with hφ | hφ
      · exact hφ
      · exact absurd hφ (h.ne_never .memorymanager)
    have hs : w.Sound (Function.update φ .memorymanager (.staged 0)) := by
      rw [← hφ, Function.update_eq_self]
      exact ⟨chain, h.inv, h.packets⟩
    refine h.of_sound (hs.other _ _ _) rfl
      (Job.follows_managerPass.buffers fun _ _ => id) fun hm => ?_
    exact h.budget_of_ever rfl rfl (fun _ hth => (nomatch hth)) (fun _ hb => (nomatch hb)) hm

omit [DecidableEq A] [DecidableEq B] in
/-- **Another thread removes a session.** -/
theorem remove (h : w.Good chain φ) (live : A → Bool) : { w with live }.Good chain φ :=
  ⟨h.inv.other live _ _ _ _ _ _, fun horderly => (h.packets horderly).other live _ _, h.follows,
    fun hm => ⟨(h.budget hm).spent, (h.budget hm).left⟩⟩

/-- **The step lemma.** -/
theorem step (h : w.Good chain φ) {e : Event A B} (hfresh : w.Fresh e) (hroom : w.Room e)
    (hcalm : w.Calm e) : ∃ chain φ, (w.step e).Good chain φ := by
  cases e with
  | deliver env id ret p => exact h.deliver env id ret p
  | pass q env => exact h.pass q env
  | refill => exact h.refill
  | act th x => exact h.act hfresh hroom hcalm
  | remove a => exact ⟨chain, φ, h.remove _⟩

def initial : Thread → Phase B
  | .fetcher => .rest
  | .processor q => .idle q
  | .memorymanager => .bootAllocated

omit [DecidableEq A] [DecidableEq B] in
/-- **The start.** -/
theorem start (garbage : PacketHead B) (env : Env) :
    (World.start garbage env : World A B).Good (fun _ => []) initial where
  inv := by
    refine ⟨fun n hn => ?_, ?_, fun th => ?_, rfl, by simp [World.start], fun b => ?_, fun q => rfl⟩
    · refine ⟨?_, fun hne => absurd rfl hne, ?_, List.nodup_nil, fun b hb => (nomatch hb)⟩
      · simp [World.start, hn]
      · simp [World.start, hn]
    · have hparts : (World.start garbage env : World A B).parts (fun _ => []) = fun _ => [] := by
        funext o
        cases o <;> rfl
      rw [hparts]
      exact Partition.nil
    · cases th with
      | fetcher => exact ⟨rfl, rfl, rfl, fun b hb => (nomatch hb), trivial⟩
      | processor q => exact ⟨rfl, rfl, rfl, fun b hb => (nomatch hb), trivial⟩
      | memorymanager => exact ⟨rfl, rfl, rfl, fun b hb => (nomatch hb), rfl, rfl⟩
    · exact ⟨fun hb => (nomatch hb), fun hb => nomatch hb⟩
  packets _ := by
    refine ⟨fun th => ?_, ?_, fun q => rfl⟩
    · cases th <;> rfl
    · have hplaces : (World.start garbage env : World A B).places (fun _ => []) = fun _ => [] := by
        funext pl
        cases pl <;> rfl
      rw [hplaces]
      exact Partition.nil
  follows th := by
    cases th with
    | fetcher => exact .done (.inl rfl)
    | processor q => exact .done (.inl rfl)
    | memorymanager => exact Job.follows_managerStart.buffers fun _ _ => id
  budget _ := ⟨Nat.le_refl 0, fun _ hi => nomatch hi⟩

end Good

end Steps

end World

end Opennop
