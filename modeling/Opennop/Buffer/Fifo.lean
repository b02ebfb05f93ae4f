import Opennop.Buffer.Queue
import Opennop.Lib.Partition

/-!
# Queues are first in, first out

A run of `queue_packet`, `dequeue_packet` and `move_queued_packets` on a family of queues does what
the same run does on lists. A packet is in at most one queue at a time, and one that is in none has
no successor: `dequeue_packet` clears its links, and that alone makes the pointers it leaves behind
elsewhere harmless.

`struct packet` comes from `calloc`, and the length of a queue is 32 bits wide: fewer than `2 ^ 32`
packets are assumed to exist.
-/

namespace Opennop

/-! ## The calls -/

inductive QueueCall (N B : Type) where
  | queue (n : N) (b : B)
  | dequeue (n : N)
  | move (fromqueue toqueue : N)

inductive QueueResult (B : Type) where
  | queued
  | packet (b : Option B)
  | moved (count : Nat)
  deriving DecidableEq

section Calls

variable {N B : Type} [DecidableEq N] [DecidableEq B]

/-- `move_queued_packets`; the head `none` is its local variables. -/
def moveQueuedPackets (m : Buffers (Option N) B) (fromqueue toqueue : N) :
    Exec (Buffers (Option N) B × Nat) :=
  addQueued (takeQueued m (some fromqueue) none) none (some toqueue)

def QueueCall.perform (m : Buffers (Option N) B) :
    QueueCall N B → Exec (Buffers (Option N) B × QueueResult B)
  | .queue n b => do
    let m ← queuePacket m (some n) b
    return (m, .queued)
  | .dequeue n => do
    let (m, b) ← dequeuePacket m (some n)
    return (m, .packet b)
  | .move fromqueue toqueue => do
    let (m, count) ← moveQueuedPackets m fromqueue toqueue
    return (m, .moved count)

def performAll (m : Buffers (Option N) B) :
    List (QueueCall N B) → Exec (Buffers (Option N) B × List (QueueResult B))
  | [] => .ok (m, [])
  | c :: cs => do
    let (m, r) ← c.perform m
    let (m, rs) ← performAll m cs
    return (m, r :: rs)

end Calls

/-! ## The same on lists -/

section Lists

variable {N B : Type} [DecidableEq N]

/-- A call on lists: it adds at the end, takes the first, or adds the whole of one list to
another. -/
def QueueCall.act (σ : N → List B) : QueueCall N B → (N → List B) × QueueResult B
  | .queue n b => (Function.update σ n (σ n ++ [b]), .queued)
  | .dequeue n =>
    match σ n with
    | [] => (σ, .packet none)
    | b :: l => (Function.update σ n l, .packet (some b))
  | .move fromqueue toqueue =>
    let σ' := Function.update σ fromqueue []
    (Function.update σ' toqueue (σ' toqueue ++ σ fromqueue), .moved (σ fromqueue).length)

def actAll (σ : N → List B) : List (QueueCall N B) → (N → List B) × List (QueueResult B)
  | [] => (σ, [])
  | c :: cs => ((actAll (c.act σ).1 cs).1, (c.act σ).2 :: (actAll (c.act σ).1 cs).2)

/-- What the callers guarantee: a packet that is queued is in no queue, and a source is not
empty. -/
def QueueCall.Allowed (packets : List B) (σ : N → List B) : QueueCall N B → Prop
  | .queue _ b => b ∈ packets ∧ ∀ n, b ∉ σ n
  | .dequeue _ => True
  | .move fromqueue _ => σ fromqueue ≠ []

def AllowedAll (packets : List B) (σ : N → List B) : List (QueueCall N B) → Prop
  | [] => True
  | c :: cs => c.Allowed packets σ ∧ AllowedAll packets (c.act σ).1 cs

end Lists

/-! ## What the memory represents -/

section Represents

variable {K B : Type} {packets free : List B} {m m' : Buffers K B} {q : K → List B} {b : B}

/-- Where packets are: in no queue, or in one of them. -/
def places (free : List B) (q : K → List B) : Option K → List B
  | none => free
  | some k => q k

/-- The queues are the lists `q`, and the packets in none of them are `free`. -/
structure Represents (packets : List B) (m : Buffers K B) (free : List B) (q : K → List B) :
    Prop where
  queue : ∀ k, Queue m k (q k)
  parts : Partition (places free q) packets
  loose : ∀ b ∈ free, m.Loose b

namespace Represents

theorem not_mem_free (h : Represents packets m free q) {k : K} (hb : b ∈ q k) : b ∉ free := by
  have hne : (none : Option K) ≠ some k := nofun
  exact h.parts.not_mem (i := some k) (j := none) hb hne

theorem not_mem_queue (h : Represents packets m free q) {k k' : K} (hb : b ∈ q k) (hne : k' ≠ k) :
    b ∉ q k' :=
  h.parts.not_mem (i := some k) (j := some k') hb fun heq => hne (Option.some.inj heq)

theorem mem_free (h : Represents packets m free q) (hb : b ∈ packets) (hq : ∀ k, b ∉ q k) :
    b ∈ free := by
  obtain ⟨place, hplace⟩ := h.parts.exists_mem b hb
  cases place with
  | none => exact hplace
  | some k => exact absurd hplace (hq k)

theorem frame (h : Represents packets m free q) {ns : List K} {bs : List B}
    (hr : Relinked m m' ns bs) {n : K} (hn : n ∈ ns) (hbs : ∀ b ∈ bs, b ∈ q n) {k : K}
    (hk : k ∉ ns) : Queue m' k (q k) := by
  refine (h.queue k).frame hr hk ?_
  intro b hb hbs'
  have hne : n ≠ k := fun heq => hk (heq ▸ hn)
  exact h.not_mem_queue hb hne (hbs b hbs')

theorem queue_update [DecidableEq K] (h : Represents packets m free q) {n : K} {l bs : List B}
    (hr : Relinked m m' [n] bs) (hbs : ∀ b ∈ bs, b ∈ q n) (hn : Queue m' n l) (k : K) :
    Queue m' k (Function.update q n l k) := by
  by_cases hk : k = n
  · subst hk
    rwa [Function.update_self]
  · rw [Function.update_of_ne hk]
    exact h.frame hr (List.mem_singleton_self n) hbs (by simpa using hk)

theorem loose_frame (h : Represents packets m free q) {ns : List K} {bs : List B}
    (hr : Relinked m m' ns bs) {n : K} (hbs : ∀ b ∈ bs, b ∈ q n) (hb : b ∈ free) : m'.Loose b := by
  refine hr.loose ?_ (h.loose b hb)
  intro hbs'
  exact h.not_mem_free (hbs b hbs') hb

variable [DecidableEq K] [DecidableEq B] (hfew : packets.length < 4294967296)
include hfew

theorem queuePacket (h : Represents packets m free q) (n : K) (hb : b ∈ free) :
    ∃ m', queuePacket m n b = .ok m' ∧
      Represents packets m' (free.erase b) (Function.update q n (q n ++ [b])) := by
  have hnot : b ∉ q n := fun hmem => h.not_mem_free hmem hb
  have hlen : (q n).length + 1 ≤ packets.length :=
    h.parts.length_lt (i := none) (j := some n) hb nofun
  obtain ⟨m', hm', hqueue, hr⟩ := (h.queue n).queuePacket (h.loose b hb) hnot (by omega)
  have hbs : ∀ x ∈ q n, x ∈ q n := fun _ hx => hx
  refine ⟨m', hm', h.queue_update hr hbs hqueue, ?_, ?_⟩
  · -- the packet moves from `free` to the queue
    refine h.parts.move (i := none) (j := some n) (x := b) nofun (List.perm_cons_erase hb) ?_ ?_
    · change (Function.update q n (q n ++ [b]) n).Perm (b :: q n)
      rw [Function.update_self]
      exact List.perm_append_singleton b (q n)
    · intro place hnone hsome
      cases place with
      | none => exact absurd rfl hnone
      | some k =>
        have hk : k ≠ n := fun heq => hsome (congrArg some heq)
        exact Function.update_of_ne hk _ _
  · intro x hx
    exact h.loose_frame hr hbs (List.mem_of_mem_erase hx)

theorem dequeuePacket (h : Represents packets m free q) {n : K} {l : List B} (hq : q n = b :: l) :
    ∃ m', dequeuePacket m n = .ok (m', some b) ∧
      Represents packets m' (b :: free) (Function.update q n l) := by
  have hmem : b ∈ q n := by
    rw [hq]
    exact List.mem_cons_self
  have hlen : (q n).length ≤ packets.length := h.parts.length_le (some n)
  have hqueue := h.queue n
  rw [hq] at hqueue hlen
  rw [List.length_cons] at hlen
  obtain ⟨m', hm', hqueue', hloose, hr⟩ := hqueue.dequeuePacket (by omega)
  have hbs : ∀ x ∈ [b], x ∈ q n := fun x hx => List.mem_singleton.1 hx ▸ hmem
  refine ⟨m', hm', h.queue_update hr hbs hqueue', ?_, ?_⟩
  · -- the packet moves from the queue to `free`
    refine h.parts.move (i := some n) (j := none) (x := b) nofun ?_ (List.Perm.refl _) ?_
    · change (q n).Perm (b :: Function.update q n l n)
      rw [Function.update_self, hq]
    · intro place hsome hnone
      cases place with
      | none => exact absurd rfl hnone
      | some k =>
        have hk : k ≠ n := fun heq => hsome (congrArg some heq)
        exact Function.update_of_ne hk _ _
  · intro x hx
    rcases List.mem_cons.1 hx with rfl | hx
    · exact hloose
    · exact h.loose_frame hr hbs hx

omit hfew [DecidableEq B] in
/-- The lists after the whole of one has moved to another, which a move does twice. -/
theorem moved (h : Represents packets m free q) {i j : K} (hij : i ≠ j) {ns : List K} {bs : List B}
    (hr : Relinked m m' ns bs) (hns : ∀ k, k ∈ ns ↔ k = i ∨ k = j) (hbs : ∀ b ∈ bs, b ∈ q j)
    (hi : Queue m' i []) (hj : Queue m' j (q j ++ q i)) :
    Represents packets m' free (Function.update (Function.update q i []) j (q j ++ q i)) := by
  refine ⟨?_, ?_, ?_⟩
  · intro k
    by_cases hkj : k = j
    · subst hkj
      rwa [Function.update_self]
    · rw [Function.update_of_ne hkj]
      by_cases hki : k = i
      · subst hki
        rwa [Function.update_self]
      · rw [Function.update_of_ne hki]
        exact h.frame hr ((hns j).2 (.inr rfl)) hbs fun hk => ((hns k).1 hk).elim hki hkj
  · refine h.parts.moveAll (i := some i) (j := some j)
      (fun heq => hij (Option.some.inj heq)) ?_ ?_ ?_
    · change Function.update (Function.update q i []) j (q j ++ q i) i = []
      rw [Function.update_of_ne hij, Function.update_self]
    · exact Function.update_self ..
    · intro place hi hj
      cases place with
      | none => rfl
      | some k =>
        have hki : k ≠ i := fun heq => hi (congrArg some heq)
        have hkj : k ≠ j := fun heq => hj (congrArg some heq)
        change Function.update (Function.update q i []) j (q j ++ q i) k = q k
        rw [Function.update_of_ne hkj, Function.update_of_ne hki]
  · intro x hx
    exact h.loose_frame hr hbs hx

omit hfew [DecidableEq B] in
theorem takeQueued (h : Represents packets m free q) {n k : K} (hk : n ≠ k) (hnil : q k = []) :
    Represents packets (takeQueued m n k) free
      (Function.update (Function.update q n []) k (q n)) := by
  obtain ⟨hlocals, hempty, hr⟩ := (h.queue n).takeQueued hk.symm
  have hmoved := h.moved hk hr (by simp) (fun _ hb => nomatch hb) hempty (by rwa [hnil])
  rwa [hnil, List.nil_append] at hmoved

theorem addQueued (h : Represents packets m free q) {n k : K} (hk : k ≠ n) (hne : q k ≠ []) :
    ∃ m', addQueued m k n = .ok (m', (q k).length) ∧
      Represents packets m' free (Function.update (Function.update q k []) n (q n ++ q k)) := by
  have hlen : (q n ++ q k).length ≤ packets.length :=
    h.parts.length_add_le (i := some n) (j := some k) fun heq => hk (Option.some.inj heq).symm
  have hdisj : ∀ b ∈ q n, b ∉ q k := fun b hb => h.not_mem_queue hb hk
  obtain ⟨m', hm', hqueue, hempty, hr⟩ := (h.queue k).addQueued (h.queue n) hk hne hdisj (by omega)
  exact ⟨m', hm', h.moved hk hr (by simp [or_comm]) (fun _ hb => hb) hempty hqueue⟩

end Represents

end Represents

/-! ## Every run -/

section Runs

variable {N B : Type} [DecidableEq N] {packets free : List B} {m : Buffers (Option N) B}
  {σ : N → List B}

/-- The lists of the queues, with nothing in the local variables of a move. -/
def withLocals (σ : N → List B) : Option N → List B
  | none => []
  | some n => σ n

theorem update_withLocals (σ : N → List B) (n : N) (l : List B) :
    Function.update (withLocals σ) (some n) l = withLocals (Function.update σ n l) := by
  funext k
  cases k with
  | none => rfl
  | some n' =>
    by_cases hn : n' = n
    · subst hn
      simp only [Function.update_self, withLocals]
    · have hne : some n' ≠ some n := fun heq => hn (Option.some.inj heq)
      rw [Function.update_of_ne hne]
      exact (Function.update_of_ne hn _ _).symm

theorem update_moved (σ : N → List B) (a b : N) :
    let q := Function.update (Function.update (withLocals σ) (some a) []) none (σ a)
    Function.update (Function.update q none []) (some b) (q (some b) ++ q none) =
      withLocals ((QueueCall.move a b).act σ).1 := by
  intro q
  have hsome : q (some b) = Function.update σ a [] b := by
    change Function.update (Function.update (withLocals σ) (some a) []) none (σ a) (some b) = _
    rw [Function.update_of_ne (Option.some_ne_none b), update_withLocals]
    rfl
  have hnone : q none = σ a := Function.update_self ..
  have hback : Function.update q none [] = withLocals (Function.update σ a []) := by
    funext k
    cases k with
    | none => exact Function.update_self ..
    | some n =>
      change Function.update
        (Function.update (Function.update (withLocals σ) (some a) []) none (σ a))
        none [] (some n) = _
      have hne := Option.some_ne_none n
      rw [Function.update_of_ne hne, Function.update_of_ne hne, update_withLocals]
  rw [hsome, hnone, hback, update_withLocals]
  rfl

variable [DecidableEq B] (hfew : packets.length < 4294967296)
include hfew

/-- **One call** does on the memory what it does on the lists. -/
theorem Represents.perform (h : Represents packets m free (withLocals σ)) {c : QueueCall N B}
    (hc : c.Allowed packets σ) :
    ∃ m' free', c.perform m = .ok (m', (c.act σ).2) ∧
      Represents packets m' free' (withLocals (c.act σ).1) := by
  cases c with
  | queue n b =>
    obtain ⟨hb, hnot⟩ := hc
    have hfree : b ∈ free := by
      refine h.mem_free hb fun k => ?_
      cases k with
      | none => exact List.not_mem_nil
      | some n' => exact hnot n'
    obtain ⟨m', hm', h'⟩ := h.queuePacket hfew (some n) hfree
    rw [update_withLocals] at h'
    refine ⟨m', _, ?_, h'⟩
    rw [QueueCall.perform, hm', ok_bind]
    rfl
  | dequeue n =>
    cases hq : σ n with
    | nil =>
      have hnil : Queue m (some n) [] := by
        have hqueue := h.queue (some n)
        rwa [withLocals, hq] at hqueue
      have hact : (QueueCall.dequeue n).act σ = (σ, .packet none) := by
        rw [QueueCall.act, hq]
      refine ⟨m, free, ?_, by rw [hact]; exact h⟩
      rw [QueueCall.perform, hnil.dequeuePacket_nil, ok_bind, hact]
      rfl
    | cons b l =>
      obtain ⟨m', hm', h'⟩ := h.dequeuePacket hfew (n := some n) hq
      have hact : (QueueCall.dequeue n).act σ = (Function.update σ n l, .packet (some b)) := by
        rw [QueueCall.act, hq]
      rw [update_withLocals] at h'
      refine ⟨m', _, ?_, by rw [hact]; exact h'⟩
      rw [QueueCall.perform, hm', ok_bind, hact]
      rfl
  | move a b =>
    have htaken := h.takeQueued (n := some a) (k := none) nofun rfl
    have hlocals :
        Function.update (Function.update (withLocals σ) (some a) []) none (σ a) none = σ a :=
      Function.update_self ..
    obtain ⟨m', hm', h'⟩ := htaken.addQueued hfew (k := none) (n := some b) nofun (by
      rw [withLocals, hlocals]
      exact hc)
    rw [withLocals, update_moved] at h'
    rw [withLocals, hlocals] at hm'
    refine ⟨m', free, ?_, h'⟩
    rw [QueueCall.perform, moveQueuedPackets, hm', ok_bind]
    rfl

theorem Represents.performAll (h : Represents packets m free (withLocals σ))
    {cs : List (QueueCall N B)} (hcs : AllowedAll packets σ cs) :
    ∃ m' free', performAll m cs = .ok (m', (actAll σ cs).2) ∧
      Represents packets m' free' (withLocals (actAll σ cs).1) := by
  induction cs generalizing m free σ with
  | nil => exact ⟨m, free, rfl, h⟩
  | cons c cs ih =>
    obtain ⟨m₁, free₁, hm₁, h₁⟩ := h.perform hfew hcs.1
    obtain ⟨m₂, free₂, hm₂, h₂⟩ := ih h₁ hcs.2
    refine ⟨m₂, free₂, ?_, h₂⟩
    rw [Opennop.performAll, hm₁, ok_bind]
    dsimp only
    rw [hm₂, ok_bind]
    rfl

omit hfew [DecidableEq N] [DecidableEq B] in
/-- Empty queues, and packets as `calloc` leaves them. -/
theorem Represents.init (hhead : ∀ k, m.head k = {}) (hnodup : packets.Nodup)
    (hloose : ∀ b ∈ packets, m.Loose b) : Represents packets m packets
    (withLocals fun _ : N => []) where
  queue k := by
    have hnil : withLocals (fun _ : N => ([] : List B)) k = [] := by
      cases k <;> rfl
    rw [hnil]
    refine ⟨?_, fun hne => absurd rfl hne, ?_, List.nodup_nil, fun b hb => nomatch hb⟩
    · rw [hhead k]
      rfl
    · rw [hhead k]
      rfl
  parts := by
    have hnil : ∀ k x, x ∉ places packets (withLocals fun _ : N => []) (some k) := by
      intro k x hx
      cases k <;> cases hx
    refine ⟨fun place => ?_, fun place x hx => ?_, fun x hx => ⟨none, hx⟩, fun i j x hi hj => ?_⟩
    · cases place with
      | none => exact hnodup
      | some k => cases k <;> exact List.nodup_nil
    · cases place with
      | none => exact hx
      | some k => exact absurd hx (hnil k x)
    · cases i with
      | some k => exact absurd hi (hnil k x)
      | none =>
        cases j with
        | some k => exact absurd hj (hnil k x)
        | none => rfl
  loose := hloose

omit hfew in
/-- **Packet queues are first in, first out.** After any allowed run of calls every queue has the
packets of its list, in their order and with their number, and every call has returned what it
returns on the lists. -/
theorem queues_fifo (packets : List B) (hfew : packets.length < 4294967296) (hnodup : packets.Nodup)
    (m : Buffers (Option N) B) (hhead : ∀ k, m.head k = {}) (hloose : ∀ b ∈ packets, m.Loose b)
    (cs : List (QueueCall N B)) (hcs : AllowedAll packets (fun _ => []) cs) :
    ∃ m', performAll m cs = .ok (m', (actAll (fun _ => []) cs).2) ∧
      ∀ n, Queue m' (some n) ((actAll (fun _ => []) cs).1 n) := by
  obtain ⟨m', free', hrun, h'⟩ := (Represents.init hhead hnodup hloose).performAll hfew hcs
  exact ⟨m', hrun, fun n => h'.queue (some n)⟩

end Runs

/-- Three packets, as `calloc` leaves them, and two queues. -/
def somePackets : Buffers (Option Bool) (Fin 3) := ⟨fun _ => some {}, fun _ => {}⟩

/-- Two packets are queued, moved behind a third one, and taken out. -/
def someCalls : List (QueueCall Bool (Fin 3)) :=
  [.queue false 1, .queue false 2, .queue true 0, .move false true, .dequeue false, .dequeue true,
    .queue false 0, .dequeue true]

theorem queues_fifo_someCalls :
    ∃ m', performAll somePackets someCalls =
      .ok (m', [.queued, .queued, .queued, .moved 2, .packet none,
        .packet (some 0), .queued, .packet (some 1)]) ∧
      Queue m' (some false) [0] ∧ Queue m' (some true) [2] := by
  have hcs : AllowedAll (List.finRange 3) (fun _ => []) someCalls := by
    simp only [someCalls, AllowedAll, QueueCall.Allowed]
    decide
  obtain ⟨m', hrun, hqueue⟩ := queues_fifo (List.finRange 3) (by decide) (by decide) somePackets
    (fun _ => rfl) (fun b _ => ⟨{}, rfl, rfl⟩) someCalls hcs
  exact ⟨m', hrun, hqueue false, hqueue true⟩

end Opennop
