import Opennop.Buffer.Verdicts

/-!
# The bytes of a packet on their way

The invariant that carries a packet from `fetcher_callback` to its verdict: what is in a queue is
what the fetcher has put there for a packet that was delivered, and what a thread knows of its
packet is so. No other thread can change it, since a buffer is in one queue or in one hand.
-/

namespace Opennop

theorem Relinked.refl {N B : Type} (m : Buffers N B) : Relinked m m [] [] :=
  ⟨fun _ _ => rfl, fun _ _ => rfl, fun _ => rfl⟩

theorem relinked_setHead {N B : Type} [DecidableEq N] (m : Buffers N B) (n : N) (h : PacketHead B) :
    Relinked m (m.setHead n h) [n] [] := by
  refine ⟨fun n' hn' => ?_, fun _ _ => rfl, fun _ => rfl⟩
  exact Buffers.head_setHead_of_ne m n h fun hn => hn' (List.mem_singleton.2 hn)

namespace World

variable {A B : Type}

/-! ## What an action leaves alone -/

/-- An action of `th` leaves the other threads and their buffers alone, and what it puts into a
queue of a processor is no other buffer than the one that it hands over. -/
structure Moves (th : Thread) (e : Act A B) (w w' : World A B) (chain : QueueName → List B) :
    Prop where
  held : ∀ th', th' ≠ th → w'.held th' = w.held th'
  content : ∀ b ∈ w.ever, b ∉ w.held th → w'.mem.content b = w.mem.content b
  lane : ∀ q, ∃ l, Queue w'.mem (.lane q) l ∧ ∀ b ∈ l, b ∈ chain (.lane q) ∨
    e = .queuePacket (.lane q) b ∧ w'.mem.content b = w.mem.content b

section Moves

variable {w w' : World A B} {chain : QueueName → List B} {φ : Thread → Phase B} {th : Thread}
  {e : Act A B}

theorem Moves.of_relinked (h : w.Inv chain φ) {ns : List QueueName} {bs : List B}
    (hr : Relinked w.mem w'.mem ns bs) (hheld : ∀ th', th' ≠ th → w'.held th' = w.held th')
    (hns : ∀ q, QueueName.lane q ∉ ns) (hbs : ∀ q, ∀ b ∈ chain (.lane q), b ∉ bs) :
    Moves th e w w' chain where
  held := hheld
  content b _ _ := hr.content b
  lane q :=
    ⟨chain (.lane q), (h.queue (.lane q) (nofun)).frame hr (hns q) (hbs q), fun _ hb => .inl hb⟩

theorem Moves.of_mem (h : w.Inv chain φ) (hmem : w'.mem = w.mem)
    (hheld : ∀ th', th' ≠ th → w'.held th' = w.held th') : Moves th e w w' chain := by
  have hr : Relinked w.mem w'.mem [] [] := by
    rw [hmem]
    exact .refl w.mem
  exact .of_relinked h hr hheld (fun _ => List.not_mem_nil) fun _ _ _ => List.not_mem_nil

variable [DecidableEq A] [DecidableEq B]

omit [DecidableEq A] in
theorem Moves.of_store (h : w.Inv chain φ) {b : B} {pkt : Packet B}
    (hmem : w'.mem = w.mem.store b pkt) (hheld : ∀ th', th' ≠ th → w'.held th' = w.held th')
    (hb : b ∈ w.held th ∨ w.mem.heap b = none) : Moves th e w w' chain := by
  have hchain : ∀ n, b ∉ chain n := by
    intro n hn
    rcases hb with hb | hb
    · exact h.not_mem_chain hb n hn
    · obtain ⟨pkt, hpkt⟩ := (h.alloc b).1 (h.parts.mem_all (.queue n) b hn)
      rw [hb] at hpkt
      cases hpkt
  refine ⟨hheld, fun y hy hyh => ?_, fun q => ⟨chain (.lane q), ?_, fun _ hy => .inl hy⟩⟩
  · have hne : y ≠ b := by
      rintro rfl
      rcases hb with hb | hb
      · exact hyh hb
      · obtain ⟨pkt, hpkt⟩ := (h.alloc y).1 hy
        rw [hb] at hpkt
        cases hpkt
    rw [hmem]
    unfold Buffers.content
    rw [Buffers.heap_store_of_ne hne]
  · rw [hmem]
    exact (h.queue (.lane q) (nofun)).store (hchain _) pkt

theorem Moves.of_queuePacket (h : w.Inv chain φ) {b : B} {n : QueueName} {x : Input A B} {u : Unit}
    (hb : b ∈ w.held th) (hq : Queue w.mem n (chain n) ∨ chain n = [] ∧ (w.mem.head n).qlen = 0)
    (hperf : w.perform th x (.queuePacket n b) = .ok (w', u)) :
    Moves th (.queuePacket n b) w w' chain := by
  obtain ⟨mem, hmem, hqueue, hr⟩ := h.queuePacket hb hq
  obtain ⟨rfl, -⟩ := Sound.of_perform hperf (perform_queue hmem)
  refine ⟨fun _ hne => Function.update_of_ne hne .., fun y _ _ => hr.content y, fun q => ?_⟩
  by_cases hn : n = .lane q
  · subst hn
    refine ⟨_, hqueue, fun y hy => ?_⟩
    rcases List.mem_append.1 hy with hy | hy
    · exact .inl hy
    · exact .inr ⟨by rw [List.mem_singleton.1 hy], hr.content y⟩
  · refine ⟨chain (.lane q), (h.queue (.lane q) (nofun)).frame hr ?_ ?_, fun _ hy => .inl hy⟩
    · exact fun hq => hn (List.mem_singleton.1 hq).symm
    · exact fun y hy => h.chain_disjoint (Ne.symm hn) hy

omit [DecidableEq A] in
theorem Inv.dequeuePacket (h : w.Inv chain φ) {b : B} {n : QueueName} {l : List B}
    (hchain : chain n = b :: l) (hn : n ≠ .staging) :
    ∃ mem, dequeuePacket w.mem n = .ok (mem, some b) ∧ Queue mem n l ∧
      Relinked w.mem mem [n] [b] := by
  have hq := h.queue n hn
  have hle := h.parts.length_le (.queue n)
  change (chain n).length ≤ _ at hle
  rw [hchain] at hq hle
  obtain ⟨mem, hmem, hqueue, -, hr⟩ := hq.dequeuePacket (lt_of_le_of_lt hle h.few)
  exact ⟨mem, hmem, hqueue, hr⟩

theorem Moves.of_dequeuePacket (h : w.Inv chain φ) {n : QueueName} {x : Input A B} {o : Option B}
    (hperf : w.perform th x (.dequeuePacket n) = .ok (w', o)) (hn : n ≠ .staging) :
    Moves th e w w' chain := by
  have hq := h.queue n hn
  cases hchain : chain n with
  | nil =>
    rw [hchain] at hq
    obtain ⟨rfl, -⟩ := Sound.of_perform hperf (perform_dequeue_none hq.dequeuePacket_nil)
    exact .of_mem h rfl fun _ _ => rfl
  | cons b l =>
    obtain ⟨mem, hmem, hqueue, hr⟩ := h.dequeuePacket hchain hn
    obtain ⟨rfl, -⟩ := Sound.of_perform hperf (perform_dequeue_some hmem)
    refine ⟨fun _ hne => Function.update_of_ne hne .., fun y _ _ => hr.content y, fun q => ?_⟩
    by_cases hq : n = .lane q
    · subst hq
      refine ⟨l, hqueue, fun y hy => .inl ?_⟩
      rw [hchain]
      exact List.mem_cons_of_mem b hy
    · refine ⟨chain (.lane q), (h.queue (.lane q) (nofun)).frame hr ?_ ?_, fun _ hy => .inl hy⟩
      · exact fun hmem => hq (List.mem_singleton.1 hmem).symm
      · intro y hy hyb
        refine h.chain_disjoint (Ne.symm hq) hy ?_
        rw [List.mem_singleton.1 hyb, hchain]
        exact List.mem_cons_self

theorem Moves.of_addQueued (h : w.Inv chain φ) {k n : Nat} {x : Input A B}
    (hφ : φ .memorymanager = .moving k)
    (hperf : w.perform .memorymanager x .addQueued = .ok (w', n)) :
    Moves .memorymanager e w w' chain := by
  have hst := (h.stands .memorymanager).fact
  rw [hφ] at hst
  obtain ⟨-, -, hlength, hk⟩ := hst
  have hnil : chain .locals ≠ [] := List.ne_nil_of_length_pos (hlength ▸ hk)
  have hne : QueueName.locals ≠ .pool := nofun
  have hlen : (chain .pool ++ chain .locals).length < 4294967296 :=
    lt_of_le_of_lt (h.parts.length_add_le (i := .queue .pool) (j := .queue .locals) (nofun)) h.few
  obtain ⟨mem, hmem, -, -, hr⟩ :=
    (h.queue .locals (nofun)).addQueued (h.queue .pool (nofun)) hne hnil
    (fun y hy => h.chain_disjoint hne.symm hy) hlen
  obtain ⟨rfl, -⟩ := Sound.of_perform hperf (perform_add hmem)
  refine .of_relinked h hr (fun _ _ => rfl) (fun _ hq => by simp at hq) fun q y hy => ?_
  have hlane : QueueName.lane q ≠ .pool := nofun
  exact h.chain_disjoint hlane hy

/-- **What an action leaves alone.** -/
theorem Good.moves (h : w.Good chain φ) {x : Input A B} {next : e.Result → Job A B Unit}
    {r : e.Result} (hjob : w.job th = .act e next) (hfresh : w.Fresh (.act th x))
    (hperf : w.perform th x e = .ok (w', r)) : Moves th e w w' chain := by
  have hfollows := h.follows th
  rw [hjob] at hfollows
  obtain ⟨φ', hgoes, -⟩ := hfollows.next r
  have hinv := h.inv
  have hst := hinv.stands th
  have hnew : e.allocates → w.mem.heap x.calloc = none := by
    intro he
    refine hfresh e ?_ he x.calloc rfl
    change e ∈ (w.job th).head?
    rw [hjob]
    rfl
  generalize hφ : φ th = ψ at hgoes
  rw [hφ] at hst
  have hin : ∀ {b}, ψ.held = [b] → b ∈ w.held th := by
    intro b hb
    rw [hst.held, hb]
    exact List.mem_singleton_self b
  cases hgoes with
  | call =>
    obtain ⟨live, rfl⟩ := call_eq hperf
    exact .of_mem hinv rfl fun _ _ => rfl
  | confirmed =>
    obtain rfl := verify_true hperf
    exact .of_mem hinv rfl fun _ _ => rfl
  | forgotten =>
    obtain rfl := verify_false hperf
    exact .of_mem hinv rfl fun _ hne => Function.update_of_ne hne ..
  | low | filled | level | account | count | answer | verdict =>
    obtain ⟨rfl, -⟩ := Sound.of_perform hperf rfl
    exact .of_mem hinv rfl fun _ _ => rfl
  | take | missing | nothing | dequeue => exact .of_dequeuePacket hinv hperf (nofun)
  | allocate | new =>
    obtain ⟨rfl, -⟩ := Sound.of_perform hperf rfl
    exact .of_store hinv rfl (fun _ hne => Function.update_of_ne hne ..) (.inr (hnew rfl))
  | @wipe i b =>
    obtain ⟨pkt, hpkt, -⟩ := hst.loose b (hin rfl)
    obtain ⟨rfl, -⟩ := Sound.of_perform hperf (perform_wipe hpkt)
    exact .of_store hinv rfl (fun _ _ => rfl) (.inl (hin rfl))
  | @save i ret b p =>
    obtain ⟨pkt, hpkt, -⟩ := hst.loose b (hin rfl)
    obtain ⟨rfl, -⟩ := Sound.of_perform hperf (perform_save hpkt)
    exact .of_store hinv rfl (fun _ _ => rfl) (.inl (hin rfl))
  | @store q b i p =>
    obtain ⟨pkt, hpkt, -⟩ := hst.loose b (hin rfl)
    obtain ⟨rfl, -⟩ := Sound.of_perform hperf (perform_store hpkt)
    exact .of_store hinv rfl (fun _ _ => rfl) (.inl (hin rfl))
  | handOver | put => exact .of_queuePacket hinv (hin rfl) (.inl (hinv.queue _ (nofun))) hperf
  | @stage k b =>
    refine .of_queuePacket hinv (hin rfl) ?_ hperf
    have hstaged : w.mem.Staged chain k := hst.fact
    rcases Nat.eq_zero_or_pos k with rfl | hk
    · exact .inr ⟨List.length_eq_zero_iff.1 hstaged.length, hstaged.qlen⟩
    · exact .inl (hstaged.queue hk)
  | @load q b i p =>
    obtain ⟨pkt, hpkt, -⟩ := hst.loose b (hin rfl)
    obtain ⟨rfl, -⟩ := Sound.of_perform hperf (perform_load hpkt)
    exact .of_mem hinv rfl fun _ _ => rfl
  | @readFlags q b p =>
    obtain ⟨pkt, hpkt⟩ := (hinv.alloc b).1 hst.fact
    obtain ⟨rfl, -⟩ := Sound.of_perform hperf (perform_readFlags hpkt)
    exact .of_mem hinv rfl fun _ _ => rfl
  | resetAllocated =>
    obtain ⟨rfl, -⟩ := Sound.of_perform hperf rfl
    exact .of_mem hinv rfl fun _ _ => rfl
  | resetPool | resetStaging =>
    obtain ⟨rfl, -⟩ := Sound.of_perform hperf rfl
    exact .of_relinked hinv (relinked_setHead w.mem _ _) (fun _ _ => rfl)
      (fun _ hq => nomatch List.mem_singleton.1 hq) fun _ _ _ => List.not_mem_nil
  | takeQueued hk =>
    obtain ⟨rfl, -⟩ := Sound.of_perform hperf rfl
    have hstaged : w.mem.Staged chain _ := hst.fact
    have hlocals : QueueName.locals ≠ .staging := nofun
    exact .of_relinked hinv ((hstaged.queue hk).takeQueued hlocals).2.2 (fun _ _ => rfl)
      (fun _ hq => by simp at hq) fun _ _ _ => List.not_mem_nil
  | addQueued | miscounted =>
    obtain rfl := hinv.thread_eq hφ rfl
    exact .of_addQueued hinv hφ hperf
  | never => cases hst.thread

end Moves

/-! ## The invariant -/

/-- The packets that were delivered, with the node at that time, the number and the length. -/
abbrev Deliveries := Env → Nat → Nat → Mem → Prop

variable (A) in
/-- For a packet that was delivered with the number `i` the fetcher gives the bytes `d` to the queue
`q`. -/
def Handed (D : Deliveries) (i : Nat) (q : Lane) (d : Mem) : Prop :=
  ∃ env ret p, D env i ret p ∧
    (fetcherCallback env i ret true p : Prog A Verdict).Returns (handed q d)

/-- What the thread knows is so. -/
def Knows (w : World A B) (D : Deliveries) (th : Thread) : Stage B → Prop
  | .quiet => True
  | .fetching env i ret p => th = .fetcher ∧ D env i ret p
  | .wiped env i ret p b => th = .fetcher ∧ D env i ret p ∧ b ∈ w.held th ∧
      ∃ j, w.mem.content b = some (j, fun _ => 0)
  | .saved env i ret p b d =>
    th = .fetcher ∧ D env i ret p ∧ b ∈ w.held th ∧ w.mem.content b = some (i, d)
  | .waiting env q => th = .processor q ∧ w.env q = env
  | .has env q b => th = .processor q ∧ w.env q = env ∧ b ∈ w.held th ∧
      ∃ i d, w.mem.content b = some (i, d) ∧ Handed A D i q d
  | .working env q i d => th = .processor q ∧ w.env q = env ∧ Handed A D i q d

/-- **The invariant of the contents.** -/
structure Tracked (D : Deliveries) (w : World A B) : Prop where
  lanes : ∀ q l, Queue w.mem (.lane q) l → ∀ b ∈ l,
    ∃ i d, w.mem.content b = some (i, d) ∧ Handed A D i q d
  jobs : ∀ th, ∃ ψ, Tree.Follows contents (fun _ _ => True) ψ (w.job th) ∧ w.Knows D th ψ

section Contents

variable {w w' : World A B} {chain : QueueName → List B} {φ : Thread → Phase B} {th th' : Thread}
  {e : Act A B} {D D' : Deliveries} {ψ ψ' : Stage B}

theorem Handed.mono {i : Nat} {q : Lane} {d : Mem} (h : Handed A D i q d)
    (hD : ∀ env i ret p, D env i ret p → D' env i ret p) : Handed A D' i q d := by
  obtain ⟨env, ret, p, hp, hv⟩ := h
  exact ⟨env, ret, p, hD _ _ _ _ hp, hv⟩

theorem Knows.mono (h : w.Knows D th ψ) (hD : ∀ env i ret p, D env i ret p → D' env i ret p) :
    w.Knows D' th ψ := by
  cases ψ with
  | quiet => trivial
  | fetching env i ret p => exact ⟨h.1, hD _ _ _ _ h.2⟩
  | wiped env i ret p b => exact ⟨h.1, hD _ _ _ _ h.2.1, h.2.2⟩
  | saved env i ret p b d => exact ⟨h.1, hD _ _ _ _ h.2.1, h.2.2⟩
  | waiting env q => exact h
  | has env q b =>
    obtain ⟨hth, henv, hb, i, d, hcontent, hd⟩ := h
    exact ⟨hth, henv, hb, i, d, hcontent, hd.mono hD⟩
  | working env q i d => exact ⟨h.1, h.2.1, h.2.2.mono hD⟩

theorem Tracked.mono (h : w.Tracked D) (hD : ∀ env i ret p, D env i ret p → D' env i ret p) :
    w.Tracked D' where
  lanes q l hl b hb := by
    obtain ⟨i, d, hcontent, hd⟩ := h.lanes q l hl b hb
    exact ⟨i, d, hcontent, hd.mono hD⟩
  jobs th := by
    obtain ⟨ψ, hjob, hψ⟩ := h.jobs th
    exact ⟨ψ, hjob, hψ.mono hD⟩

/-- What is known rests on the buffers and on the environment of the processor. -/
theorem Knows.congr (h : w.Knows D th ψ) (hmem : w'.mem = w.mem) (hheld : w'.held th = w.held th)
    (henv : ∀ q, th = .processor q → w'.env q = w.env q) : w'.Knows D th ψ := by
  cases ψ with
  | quiet => trivial
  | fetching env i ret p => exact h
  | wiped env i ret p b =>
    obtain ⟨hth, hd, hb, hj⟩ := h
    exact ⟨hth, hd, hheld ▸ hb, hmem ▸ hj⟩
  | saved env i ret p b d =>
    obtain ⟨hth, hd, hb, hj⟩ := h
    exact ⟨hth, hd, hheld ▸ hb, hmem ▸ hj⟩
  | waiting env q => exact ⟨h.1, (henv q h.1).trans h.2⟩
  | has env q b =>
    obtain ⟨hth, rfl, hb, hj⟩ := h
    exact ⟨hth, henv q hth, hheld ▸ hb, hmem ▸ hj⟩
  | working env q i d =>
    obtain ⟨hth, rfl, hd⟩ := h
    exact ⟨hth, henv q hth, hd⟩

theorem Knows.frame (h : w.Knows D th' ψ) (hinv : w.Inv chain φ) (hm : Moves th e w w' chain)
    (henv : w'.env = w.env) (hne : th' ≠ th) : w'.Knows D th' ψ := by
  have hheld := hm.held th' hne
  have hcontent : ∀ {b}, b ∈ w.held th' → w'.mem.content b = w.mem.content b :=
    fun hb => hm.content _ (hinv.mem_ever hb) (hinv.not_mem_held hb (Ne.symm hne))
  cases ψ with
  | quiet => trivial
  | fetching env i ret p => exact h
  | wiped env i ret p b =>
    obtain ⟨hth, hd, hb, j, hj⟩ := h
    exact ⟨hth, hd, hheld ▸ hb, j, (hcontent hb).trans hj⟩
  | saved env i ret p b d =>
    obtain ⟨hth, hd, hb, hj⟩ := h
    exact ⟨hth, hd, hheld ▸ hb, (hcontent hb).trans hj⟩
  | waiting env q =>
    obtain ⟨hth, rfl⟩ := h
    exact ⟨hth, by rw [henv]⟩
  | has env q b =>
    obtain ⟨hth, rfl, hb, i, d, hj, hd⟩ := h
    exact ⟨hth, by rw [henv], hheld ▸ hb, i, d, (hcontent hb).trans hj, hd⟩
  | working env q i d =>
    obtain ⟨hth, rfl, hd⟩ := h
    exact ⟨hth, by rw [henv], hd⟩

variable [DecidableEq A] [DecidableEq B] {x : Input A B}

omit [DecidableEq A] [DecidableEq B] in
theorem heap_of_content {m : Buffers QueueName B} {b : B} {c : Nat × Mem}
    (h : m.content b = some c) :
    ∃ pkt, m.heap b = some pkt ∧ (pkt.id, pkt.data) = c :=
  Option.map_eq_some_iff.1 h

theorem content_store_self (m : Buffers QueueName B) (b : B) (pkt : Packet B) :
    (m.store b pkt).content b = some (pkt.id, pkt.data) := by
  unfold Buffers.content Buffers.store
  dsimp only
  rw [Function.update_self]
  rfl

omit [DecidableEq A] [DecidableEq B] in
theorem Good.mem_held_of_wipe {b : B} {next : Unit → Job A B Unit} (h : w.Good chain φ)
    (hjob : w.job th = .act (.wipe b) next) : b ∈ w.held th := by
  have hfollows := h.follows th
  rw [hjob] at hfollows
  obtain ⟨φ', hgoes, -⟩ := hfollows.next ()
  have hst := h.inv.stands th
  generalize hφ : φ th = ψ at hgoes hst
  cases hgoes with
  | wipe =>
    rw [hst.held]
    exact List.mem_singleton_self b

theorem Knows.next (h : w.Knows D th ψ) (hgood : w.Good chain φ) (htracked : w.Tracked D)
    {next : e.Result → Job A B Unit} {r : e.Result} (hjob : w.job th = .act e next)
    (hperf : w.perform th x e = .ok (w', r)) (htells : Tells ψ e r ψ') : w'.Knows D th ψ' := by
  have henv := (effect_perform hperf).env
  cases htells with
  | call =>
    obtain ⟨live, rfl⟩ := call_eq hperf
    exact h.congr rfl rfl fun _ _ => rfl
  | confirmed =>
    obtain rfl := verify_true hperf
    exact h
  | level | take | allocate | account => exact h
  | @wipe env i ret p b =>
    have hb := hgood.mem_held_of_wipe hjob
    obtain ⟨pkt, hpkt, -⟩ := (hgood.inv.stands th).loose b hb
    obtain ⟨rfl, -⟩ := Sound.of_perform hperf (perform_wipe hpkt)
    exact ⟨h.1, h.2, hb, 0, content_store_self w.mem b {}⟩
  | @save env i ret ret' p p' b =>
    obtain ⟨hth, hd, hb, j, hj⟩ := h
    obtain ⟨pkt, hpkt, hdata⟩ := heap_of_content hj
    obtain ⟨rfl, -⟩ := Sound.of_perform hperf (perform_save hpkt)
    refine ⟨hth, hd, hb, (content_store_self w.mem b _).trans ?_⟩
    obtain ⟨-, hzero⟩ := Prod.mk.inj hdata
    unfold savePacket Mem.cut
    rw [hzero]
  | handOver | forgotten | answer | verdict | other => trivial
  | @nothing env q =>
    obtain ⟨hth, rfl⟩ := h
    exact ⟨hth, by rw [henv]⟩
  | @dequeue env q b =>
    obtain ⟨rfl, rfl⟩ := h
    have hq := hgood.inv.queue (.lane q) (nofun)
    cases hchain : chain (.lane q) with
    | nil =>
      rw [hchain] at hq
      cases (Sound.of_perform hperf (perform_dequeue_none hq.dequeuePacket_nil)).2
    | cons b' l =>
      obtain ⟨mem, hmem, -, hr'⟩ := hgood.inv.dequeuePacket hchain (nofun)
      obtain ⟨rfl, hr⟩ := Sound.of_perform hperf (perform_dequeue_some hmem)
      cases hr
      obtain ⟨i, d, hd, hhanded⟩ := htracked.lanes q _ hq b (hchain ▸ List.mem_cons_self)
      refine ⟨rfl, rfl, ?_, i, d, (hr'.content b).trans hd, hhanded⟩
      change b ∈ Function.update w.held (.processor q) (w.held (.processor q) ++ [b]) (.processor q)
      rw [Function.update_self]
      exact List.mem_append_right _ (List.mem_singleton_self b)
  | @load env q b i d =>
    obtain ⟨hth, rfl, hb, i', d', hj, hd⟩ := h
    obtain ⟨pkt, hpkt, hdata⟩ := heap_of_content hj
    obtain ⟨rfl, hr⟩ := Sound.of_perform hperf (perform_load hpkt)
    cases hr.trans hdata
    exact ⟨hth, rfl, hd⟩
  | @store env q b i d p =>
    obtain ⟨hth, rfl, hd⟩ := h
    exact ⟨hth, by rw [henv], hd⟩

theorem Tracked.act (h : w.Tracked D) (hgood : w.Good chain φ) (hfresh : w.Fresh (.act th x)) :
    (w.act th x).Tracked D := by
  cases hjob : w.job th with
  | done u =>
    rw [act_done hjob]
    exact h
  | act e next =>
    cases hperf : w.perform th x e with
    | error f =>
      rw [act_error hjob hperf]
      exact h
    | ok res =>
      obtain ⟨w', r⟩ := res
      have hmoves := hgood.moves hjob hfresh hperf
      have heffect := effect_perform hperf
      obtain ⟨ψ, hfollows, hψ⟩ := h.jobs th
      rw [hjob] at hfollows
      obtain ⟨ψ', htells, hfollows'⟩ := hfollows.next r
      rw [act_ok hjob hperf]
      refine ⟨fun q l hl b hb => ?_, fun th' => ?_⟩
      · obtain ⟨l', hl', hfrom⟩ := hmoves.lane q
        obtain rfl : l = l' := Queue.unique hl hl'
        rcases hfrom b hb with hold | ⟨rfl, hsame⟩
        · obtain ⟨i, d, hcontent, hd⟩ := h.lanes q _ (hgood.inv.queue (.lane q) (nofun)) b hold
          refine ⟨i, d, (hmoves.content b ?_ ?_).trans hcontent, hd⟩
          · exact hgood.inv.parts.mem_all (.queue (.lane q)) b hold
          · exact fun hheld => hgood.inv.not_mem_chain hheld _ hold
        · cases htells with
          | @handOver env i ret p d _ _ hv =>
            exact ⟨i, d, hsame.trans hψ.2.2.2, env, ret, p, hψ.2.1, hv⟩
          | other hpasses => exact absurd trivial hpasses
      · dsimp only
        by_cases hth : th' = th
        · subst hth
          rw [Function.update_self]
          exact ⟨ψ', hfollows', (hψ.next hgood h hjob hperf htells).congr rfl rfl fun _ _ => rfl⟩
        · obtain ⟨ψ₁, hfollows₁, hψ₁⟩ := h.jobs th'
          rw [Function.update_of_ne hth, heffect.job]
          exact ⟨ψ₁, hfollows₁, (hψ₁.frame hgood.inv hmoves heffect.env hth).congr rfl rfl
            fun _ _ => rfl⟩

omit [DecidableEq A] [DecidableEq B] in
theorem Tracked.begin (h : w.Tracked D) (th : Thread) {job : Job A B Unit}
    (hD : ∀ env i ret p, D env i ret p → D' env i ret p) (hmem : w'.mem = w.mem)
    (hheld : w'.held = w.held)
    (hjob : w'.job = Function.update w.job th job)
    (henv : ∀ q, .processor q ≠ th → w'.env q = w.env q)
    (hfollows : Tree.Follows contents (fun _ _ => True) ψ job) (hψ : w'.Knows D' th ψ) :
    w'.Tracked D' := by
  refine ⟨hmem ▸ (h.mono hD).lanes, fun th' => ?_⟩
  rw [hjob]
  by_cases hth : th' = th
  · subst hth
    rw [Function.update_self]
    exact ⟨ψ, hfollows, hψ⟩
  · rw [Function.update_of_ne hth]
    obtain ⟨ψ', hfollows', hψ'⟩ := (h.mono hD).jobs th'
    exact ⟨ψ', hfollows', hψ'.congr hmem (congrFun hheld th') fun q hq => henv q (hq ▸ hth)⟩

/-- The packets that were delivered in a run: those the fetcher was ready for. -/
def deliveries (w : World A B) (es : List (Event A B)) : Deliveries := fun env i ret p =>
  Trace.Earlier (fun es' e => e = .deliver env i ret p ∧
    (Trace.run step w es').job .fetcher = .done ()) es

theorem Tracked.step {w₀ : World A B} {es : List (Event A B)} {e : Event A B}
    (h : (Trace.run step w₀ es).Tracked (w₀.deliveries es))
    (hgood : (Trace.run step w₀ es).Good chain φ)
    (hfresh : (Trace.run step w₀ es).Fresh e) :
    ((Trace.run step w₀ es).step e).Tracked (w₀.deliveries (es ++ [e])) := by
  have hD : ∀ env i ret p, w₀.deliveries es env i ret p → w₀.deliveries (es ++ [e]) env i ret p :=
    fun _ _ _ _ hp => hp.append [e]
  have hsame := h.mono hD
  generalize hw : Trace.run World.step w₀ es = w at h hgood hfresh hsame
  cases e with
  | act th x => exact hsame.act hgood hfresh
  | deliver env i ret p =>
    change (w.deliver env i ret p).Tracked _
    unfold deliver
    cases hjob : w.job .fetcher with
    | act a next => exact hsame
    | done u =>
      refine h.begin .fetcher hD rfl rfl rfl (fun _ _ => rfl)
        (Job.follows_fetcherTask (F := False) env i ret p nofun).contents
        ⟨rfl, Trace.Earlier.last ⟨rfl, ?_⟩⟩
      rw [hw, hjob]
  | pass q env =>
    change (w.pass q env).Tracked _
    unfold pass
    cases w.job (.processor q) with
    | act a next => exact hsame
    | done u =>
      refine h.begin (.processor q) hD rfl rfl rfl (fun q' hq' => ?_)
        (Job.follows_workerTask env q).contents ⟨rfl, Function.update_self q env w.env⟩
      exact Function.update_of_ne (fun hq => hq' (congrArg Thread.processor hq)) env w.env
  | refill =>
    change w.refill.Tracked _
    unfold refill
    cases w.job .memorymanager with
    | act a next => exact hsame
    | done u =>
      exact h.begin .memorymanager hD rfl rfl rfl (fun _ _ => rfl)
        Job.follows_managerPass.contents trivial
  | remove a =>
    refine ⟨hsame.lanes, fun th => ?_⟩
    obtain ⟨ψ, hfollows, hψ⟩ := hsame.jobs th
    exact ⟨ψ, hfollows, hψ.congr rfl rfl fun _ _ => rfl⟩

omit [DecidableEq A] [DecidableEq B] in
theorem Tracked.start (garbage : PacketHead B) (env : Env) (D : Deliveries) :
    (World.start garbage env : World A B).Tracked D where
  lanes q l hl b hb := by
    have hnil : Queue (World.start garbage env : World A B).mem (.lane q) [] :=
      (Good.start garbage env).inv.queue (.lane q) (nofun)
    rw [Queue.unique hl hnil] at hb
    cases hb
  jobs th := by
    cases th with
    | memorymanager => exact ⟨.quiet, Job.follows_managerStart.contents, trivial⟩
    | fetcher => exact ⟨.quiet, .done trivial, trivial⟩
    | processor q => exact ⟨.quiet, .done trivial, trivial⟩

end Contents

/-- **Every verdict is on the packet's own bytes.** Whatever the threads do, a verdict on the packet
`i` is one that `fetcher_callback` gives for a packet delivered with this number, or one that
`worker_thread` gives for what `fetcher_callback` puts into the queue for it, whatever flags it
reads after a failed decompression. -/
theorem verdict_own [DecidableEq A] [DecidableEq B] (garbage : PacketHead B) (env : Env)
    (es : List (Event A B)) (hfresh : Trace.Along step Fresh (start garbage env) es)
    (hroom : Trace.Along step Room (start garbage env) es)
    (hcalm : Trace.Along step Calm (start garbage env) es) {th : Thread} {i : Nat} {v : Verdict}
    (h : ((Trace.run step (start garbage env) es).job th).head? = some (.setVerdict i v)) :
    ∃ env' ret p, (start garbage env).deliveries es env' i ret p ∧
      (th = .fetcher ∧ (fetcherCallback env' i ret true p : Prog A Verdict).Returns v ∨
        ∃ q d, th = .processor q ∧
          (fetcherCallback env' i ret true p : Prog A Verdict).Returns (handed q d) ∧
          ∀ reread, (workerThread ((Trace.run step (start garbage env) es).env q) reread d :
            Prog A Verdict).Returns v) := by
  have hrun : (Trace.run step (start garbage env) es).Tracked ((start garbage env).deliveries es) ∧
      ∃ chain φ, (Trace.run step (start garbage env) es).Good chain φ := by
    refine Trace.Along.so_far
      (I := fun es w => w.Tracked ((start garbage env).deliveries es) ∧ ∃ chain φ, w.Good chain φ)
      ⟨Tracked.start garbage env _, _, _, Good.start garbage env⟩ ?_
      (Trace.along_and.2 ⟨hfresh, Trace.along_and.2 ⟨hroom, hcalm⟩⟩)
    rintro es e ⟨htracked, chain, φ, hgood⟩ ⟨hfresh, hroom, hcalm⟩
    exact ⟨htracked.step hgood hfresh, hgood.step hfresh hroom hcalm⟩
  obtain ⟨ψ, hfollows, hψ⟩ := hrun.1.jobs th
  cases hjob : (Trace.run step (start garbage env) es).job th with
  | done u =>
    rw [hjob] at h
    cases h
  | act e next =>
    rw [hjob] at h hfollows
    cases h
    obtain ⟨ψ', htells, -⟩ := hfollows.next ()
    cases htells with
    | @answer env' i ret p v hv => exact ⟨env', ret, p, hψ.2, .inl ⟨hψ.1, hv⟩⟩
    | @verdict env' q i d v hv =>
      obtain ⟨hth, rfl, env₀, ret, p, hp, hd⟩ := hψ
      exact ⟨env₀, ret, p, hp, .inr ⟨q, d, hth, hd, hv⟩⟩
    | other hpasses => exact absurd trivial hpasses

/-- The two packets of the session are queued, and the processor is about to accept the second. -/
def beforeVerdict : List (Event Unit Nat) :=
  twoResets ++ [.pass ⟨0, false⟩ idleEnv] ++
    List.replicate 8 (.act (.processor ⟨0, false⟩) (answers [] 0)) ++ [.pass ⟨0, false⟩ idleEnv] ++
    List.replicate 3 (.act (.processor ⟨0, false⟩) (answers [] 0))

theorem verdict_own_beforeVerdict :
    ∃ env' ret p, (start {} idleEnv).deliveries beforeVerdict env' 3 ret p ∧
      (Thread.processor ⟨0, false⟩ = .fetcher ∧
          (fetcherCallback env' 3 ret true p : Prog Unit Verdict).Returns .acceptOriginal ∨
        ∃ q d, Thread.processor ⟨0, false⟩ = .processor q ∧
          (fetcherCallback env' 3 ret true p : Prog Unit Verdict).Returns (handed q d) ∧
          ∀ reread, (workerThread ((Trace.run step (start {} idleEnv) beforeVerdict).env q) reread
            d : Prog Unit Verdict).Returns .acceptOriginal) := by
  have hissue : ((Trace.run step (start {} idleEnv) beforeVerdict).job
      (.processor ⟨0, false⟩)).head? = some (.setVerdict 3 .acceptOriginal) := by
    rfl
  exact verdict_own {} idleEnv beforeVerdict (by decide +kernel) (by decide +kernel)
    (by decide +kernel) hissue

end World

end Opennop
