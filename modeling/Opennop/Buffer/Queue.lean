import Mathlib.Logic.Function.Basic
import Opennop.Lib.Bytes
import Opennop.Lib.Chain
import Opennop.Lib.Exec

/-!
# Queues of packet buffers (`opennopd/queuemanager.c`, `opennopd/packet.c`)

A buffer is a block of type `struct packet`; a queue is a head with the first and the last of its
buffers and their number. The names of the queues are the elements of a type `N`, the addresses of
buffers those of a type `B`. Each function is one section under the lock of the queue, except
`move_queued_packets`, which is two: `takeQueued` puts the source queue into three local variables,
kept here as a head of their own, and `addQueued` adds them to the target.

`Queue m n l` says that the queue `n` has the buffers `l`, in this order.
-/

namespace Opennop

/-- `struct packet_head` -/
structure PacketHead (B : Type) where
  next : Option B := none
  prev : Option B := none
  qlen : Nat := 0

/-- `struct packet`. Its `head` is never read, and the handle `hq` is the same for all. -/
structure Packet (B : Type) where
  next : Option B := none
  prev : Option B := none
  id : Nat := 0
  data : Mem := fun _ => 0

/-- The heads and the buffers that have been allocated. -/
structure Buffers (N B : Type) where
  heap : B → Option (Packet B)
  head : N → PacketHead B

namespace Buffers

variable {N B : Type}

def next (m : Buffers N B) (b : B) : Option B := (m.heap b).bind Packet.next

/-- What a buffer carries. -/
def content (m : Buffers N B) (b : B) : Option (Nat × Mem) := (m.heap b).map fun p => (p.id, p.data)

def load (m : Buffers N B) (b : B) : Exec (Packet B) :=
  match m.heap b with
  | some p => .ok p
  | none => .error .segv

section Update

variable [DecidableEq B]

def store (m : Buffers N B) (b : B) (p : Packet B) : Buffers N B :=
  { m with heap := Function.update m.heap b (some p) }

/-- `b->next = v` -/
def setNext (m : Buffers N B) (b : B) (v : Option B) : Exec (Buffers N B) := do
  let p ← m.load b
  return m.store b { p with next := v }

/-- `b->prev = v` -/
def setPrev (m : Buffers N B) (b : B) (v : Option B) : Exec (Buffers N B) := do
  let p ← m.load b
  return m.store b { p with prev := v }

end Update

section Heads

variable [DecidableEq N] (m : Buffers N B) (n : N) (h : PacketHead B)

def setHead : Buffers N B := { m with head := Function.update m.head n h }

@[simp] theorem heap_setHead : (m.setHead n h).heap = m.heap := rfl

@[simp] theorem next_setHead : (m.setHead n h).next = m.next := rfl

@[simp] theorem content_setHead : (m.setHead n h).content = m.content := rfl

@[simp] theorem head_setHead : (m.setHead n h).head n = h := by
  simp [setHead]

theorem head_setHead_of_ne {n' : N} (hn : n' ≠ n) : (m.setHead n h).head n' = m.head n' := by
  simp [setHead, hn]

end Heads

end Buffers

section Operations

variable {N B : Type} [DecidableEq N] [DecidableEq B]

/-- `queue_packet` of a buffer that is not null -/
def queuePacket (m : Buffers N B) (n : N) (b : B) : Exec (Buffers N B) := do
  let h := m.head n
  let m ←
    if h.qlen = 0 then pure (m.setHead n { h with next := some b, prev := some b })
    else do
      let m ← m.setPrev b h.prev
      match h.prev with
      | none => .error .segv
      | some last =>
        let m ← m.setNext last (some b)
        pure (m.setHead n { h with prev := some b })
  let h := m.head n
  return m.setHead n { h with qlen := (h.qlen + 1) % 4294967296 }

/-- `dequeue_packet`, after it has waited -/
def dequeuePacket (m : Buffers N B) (n : N) : Exec (Buffers N B × Option B) :=
  match (m.head n).next with
  | none => .ok (m, none)
  | some b => do
    let p ← m.load b
    let h := m.head n
    let m := m.setHead n { h with next := p.next, qlen := (h.qlen + 4294967295) % 4294967296 }
    let m ← m.setNext b none
    let m ← m.setPrev b none
    return (m, some b)

omit [DecidableEq B] in
/-- The first section of `move_queued_packets`; `locals` are its variables `start`, `end` and
`qlen`. -/
def takeQueued (m : Buffers N B) (fromqueue locals : N) : Buffers N B :=
  (m.setHead locals (m.head fromqueue)).setHead fromqueue {}

/-- The second section of `move_queued_packets`, and its result. -/
def addQueued (m : Buffers N B) (locals toqueue : N) : Exec (Buffers N B × Nat) := do
  let s := m.head locals
  let h := m.head toqueue
  let m ←
    match h.next with
    | none => pure (m.setHead toqueue s)
    | some _ =>
      match s.next with
      | none => .error .segv
      | some start => do
        let m ← m.setPrev start h.prev
        match h.prev with
        | none => .error .segv
        | some last =>
          let m ← m.setNext last (some start)
          pure (m.setHead toqueue { h with prev := s.prev, qlen := (h.qlen + s.qlen) % 4294967296 })
  return (m.setHead locals {}, s.qlen)

/-- `newpacket` with the block `b`. It uses the result of `calloc` without a test. -/
def newpacket (m : Buffers N B) (b : B) : Buffers N B := m.store b {}

end Operations

/-! ## Queues as lists -/

/-- The queue `n` has the buffers `l`. -/
structure Queue {N B : Type} (m : Buffers N B) (n : N) (l : List B) : Prop where
  forward : Seg m.next (m.head n).next l none
  last : l ≠ [] → (m.head n).prev = l.getLast?
  qlen : (m.head n).qlen = l.length
  nodup : l.Nodup
  alloc : ∀ b ∈ l, ∃ p, m.heap b = some p

/-- `m'` is `m` but for the heads of `ns` and the links of the buffers in `bs`. -/
structure Relinked {N B : Type} (m m' : Buffers N B) (ns : List N) (bs : List B) : Prop where
  head : ∀ n, n ∉ ns → m'.head n = m.head n
  next : ∀ b, b ∉ bs → m'.next b = m.next b
  content : ∀ b, m'.content b = m.content b

namespace Queue

variable {N B : Type} {m m' : Buffers N B} {n : N} {l l' : List B} {b : B}

theorem alloc_of_content (hc : ∀ b, m'.content b = m.content b) (h : ∃ p, m.heap b = some p) :
    ∃ p, m'.heap b = some p := by
  obtain ⟨p, hp⟩ := h
  have hb := hc b
  unfold Buffers.content at hb
  rw [hp, Option.map_some] at hb
  obtain ⟨p', hp', -⟩ := Option.map_eq_some_iff.1 hb
  exact ⟨p', hp'⟩

theorem frame {ns : List N} {bs : List B} (h : Queue m n l) (hr : Relinked m m' ns bs) (hn : n ∉ ns)
    (hl : ∀ b ∈ l, b ∉ bs) : Queue m' n l where
  forward := by
    rw [hr.head n hn]
    exact h.forward.congr fun b hb => hr.next b (hl b hb)
  last hne := by
    rw [hr.head n hn]
    exact h.last hne
  qlen := by
    rw [hr.head n hn]
    exact h.qlen
  nodup := h.nodup
  alloc b hb := alloc_of_content hr.content (h.alloc b hb)

theorem head_eq (h : Queue m n l) : (m.head n).next = l.head? := h.forward.start_eq

theorem unique {l' : List B} (h : Queue m n l) (h' : Queue m n l') : l = l' :=
  h.forward.unique h'.forward

end Queue

/-! ## One lemma for each function -/

section Specs

variable {N B : Type} [DecidableEq N] [DecidableEq B] {m : Buffers N B} {n : N} {l : List B} {b : B}

omit [DecidableEq N] in
theorem setNext_eq (hb : ∃ p, m.heap b = some p) (v : Option B) :
    ∃ m', m.setNext b v = .ok m' ∧ m'.head = m.head ∧
      (∀ x, m'.next x = if x = b then v else m.next x) ∧ ∀ x, m'.content x = m.content x := by
  obtain ⟨p, hp⟩ := hb
  refine ⟨m.store b { p with next := v }, ?_, rfl, fun x => ?_, fun x => ?_⟩
  · simp [Buffers.setNext, Buffers.load, hp]
  · by_cases hx : x = b <;> simp [Buffers.next, Buffers.store, hx]
  · by_cases hx : x = b <;> simp [Buffers.content, Buffers.store, hx, hp]

omit [DecidableEq N] in
theorem setPrev_eq (hb : ∃ p, m.heap b = some p) (v : Option B) :
    ∃ m', m.setPrev b v = .ok m' ∧ m'.head = m.head ∧ (∀ x, m'.next x = m.next x) ∧
      ∀ x, m'.content x = m.content x := by
  obtain ⟨p, hp⟩ := hb
  refine ⟨m.store b { p with prev := v }, ?_, rfl, fun x => ?_, fun x => ?_⟩
  · simp [Buffers.setPrev, Buffers.load, hp]
  · by_cases hx : x = b <;> simp [Buffers.next, Buffers.store, hx, hp]
  · by_cases hx : x = b <;> simp [Buffers.content, Buffers.store, hx, hp]

/-- The buffer can be added to a queue: it is allocated and linked to nothing. -/
def Buffers.Loose (m : Buffers N B) (b : B) : Prop := ∃ p, m.heap b = some p ∧ p.next = none

omit [DecidableEq N] [DecidableEq B] in
theorem Buffers.Loose.next_eq (h : m.Loose b) : m.next b = none := by
  obtain ⟨p, hp, hnext⟩ := h
  rw [Buffers.next, hp, Option.bind_some, hnext]

/-- Adding to an empty queue: only its length is read. -/
theorem queuePacket_empty (h0 : (m.head n).qlen = 0) (hb : m.Loose b) :
    ∃ m', queuePacket m n b = .ok m' ∧ Queue m' n [b] ∧ Relinked m m' [n] [] := by
  refine ⟨(m.setHead n ⟨some b, some b, 0⟩).setHead n ⟨some b, some b, 1⟩, ?_, ?_, ?_⟩
  · simp [queuePacket, h0]
  · refine ⟨⟨by simp, hb.next_eq⟩,
      fun _ => by simp, by simp, List.nodup_singleton b, fun x hx => ?_⟩
    obtain ⟨p, hp, -⟩ := hb
    exact ⟨p, List.mem_singleton.1 hx ▸ hp⟩
  · refine ⟨fun n' hn' => ?_, fun x _ => rfl, fun x => rfl⟩
    have hne : n' ≠ n := fun h => hn' (List.mem_singleton.2 h)
    rw [Buffers.head_setHead_of_ne _ _ _ hne, Buffers.head_setHead_of_ne _ _ _ hne]

/-- **`queue_packet` adds at the end.** -/
theorem Queue.queuePacket (h : Queue m n l) (hb : m.Loose b) (hbl : b ∉ l)
    (hlen : l.length + 1 < 4294967296) :
    ∃ m', queuePacket m n b = .ok m' ∧ Queue m' n (l ++ [b]) ∧ Relinked m m' [n] l := by
  by_cases hnil : l = []
  · subst hnil
    exact queuePacket_empty h.qlen hb
  have h0 : (m.head n).qlen ≠ 0 := by
    rw [h.qlen]
    exact fun hzero => hnil (List.length_eq_zero_iff.1 hzero)
  obtain ⟨last, hlast⟩ : ∃ last, l.getLast? = some last := ⟨_, List.getLast?_eq_some_getLast hnil⟩
  have hmem : last ∈ l := List.mem_of_getLast? hlast
  have hprev : (m.head n).prev = some last := by rw [h.last hnil, hlast]
  have halloc : ∃ p, m.heap b = some p := hb.imp fun _ hp => hp.1
  obtain ⟨m₁, hm₁, hhead₁, hnext₁, hcontent₁⟩ := setPrev_eq halloc (some last)
  obtain ⟨m₂, hm₂, hhead₂, hnext₂, hcontent₂⟩ :=
    setNext_eq (Queue.alloc_of_content hcontent₁ (h.alloc last hmem)) (some b)
  have hcontent : ∀ x, m₂.content x = m.content x := fun x => (hcontent₂ x).trans (hcontent₁ x)
  have hnext : ∀ x, m₂.next x = if x = last then some b else m.next x := fun x => by
    rw [hnext₂ x, hnext₁ x]
  have hhead : m₂.head = m.head := hhead₂.trans hhead₁
  refine ⟨(m₂.setHead n { m.head n with prev := some b }).setHead n
    { m.head n with prev := some b, qlen := (m.head n).qlen + 1 }, ?_, ?_, ?_⟩
  · have hmod : ((m.head n).qlen + 1) % 4294967296 = (m.head n).qlen + 1 :=
      Nat.mod_eq_of_lt (by rw [h.qlen]; exact hlen)
    simp [Opennop.queuePacket, h0, hprev, hm₁, hm₂, hmod]
  · have hne : b ≠ last := fun hbl' => hbl (hbl' ▸ hmem)
    have hbn : m₂.next b = none := by rw [hnext b, if_neg hne, hb.next_eq]
    have hseg : Seg m₂.next (if l = [] then some b else (m.head n).next) l (some b) := by
      refine h.forward.retarget h.nodup fun a _ => ?_
      rw [hnext a, hlast]
      simp [eq_comm]
    rw [if_neg hnil] at hseg
    refine ⟨?_, fun _ => by simp, by simp [h.qlen], ?_, fun x hx => ?_⟩
    · rw [Seg.append_iff]
      exact ⟨some b, by simpa using hseg, rfl, hbn⟩
    · rw [List.nodup_append_comm]
      exact List.nodup_cons.2 ⟨hbl, h.nodup⟩
    · refine Queue.alloc_of_content hcontent ?_
      rcases List.mem_append.1 hx with hx | hx
      · exact h.alloc x hx
      · rw [List.mem_singleton.1 hx]
        exact halloc
  · refine ⟨fun n' hn' => ?_, fun x hx => ?_, hcontent⟩
    · have hne : n' ≠ n := fun h => hn' (List.mem_singleton.2 h)
      rw [Buffers.head_setHead_of_ne _ _ _ hne, Buffers.head_setHead_of_ne _ _ _ hne, hhead]
    · have hne : x ≠ last := fun h => hx (h ▸ hmem)
      exact (hnext x).trans (if_neg hne)

theorem Queue.dequeuePacket_nil (h : Queue m n []) : dequeuePacket m n = .ok (m, none) := by
  unfold dequeuePacket
  rw [h.head_eq]
  rfl

/-- **`dequeue_packet` takes the first.** -/
theorem Queue.dequeuePacket (h : Queue m n (b :: l)) (hlen : l.length + 1 < 4294967296) :
    ∃ m', dequeuePacket m n = .ok (m', some b) ∧ Queue m' n l ∧ m'.Loose b ∧
      Relinked m m' [n] [b] := by
  obtain ⟨p, hp⟩ := h.alloc b List.mem_cons_self
  obtain ⟨hbl, hnodup⟩ := List.nodup_cons.1 h.nodup
  have hpnext : p.next = m.next b := by rw [Buffers.next, hp, Option.bind_some]
  have hseg : Seg m.next p.next l none := by
    rw [hpnext]
    exact h.forward.2
  have hqlen : ((m.head n).qlen + 4294967295) % 4294967296 = l.length := by
    rw [h.qlen, List.length_cons]
    omega
  let m₀ := m.setHead n { m.head n with next := p.next, qlen := l.length }
  obtain ⟨m₁, hm₁, hhead₁, hnext₁, hcontent₁⟩ := setNext_eq (m := m₀) ⟨p, hp⟩ none
  obtain ⟨m₂, hm₂, hhead₂, hnext₂, hcontent₂⟩ :=
    setPrev_eq (Queue.alloc_of_content (m := m₀) hcontent₁ ⟨p, hp⟩) none
  have hcontent : ∀ x, m₂.content x = m.content x := fun x => (hcontent₂ x).trans (hcontent₁ x)
  have hnext : ∀ x, m₂.next x = if x = b then none else m.next x := fun x => by
    rw [hnext₂ x, hnext₁ x]
    rfl
  have hhead : m₂.head = m₀.head := hhead₂.trans hhead₁
  refine ⟨m₂, ?_, ⟨?_, fun hne => ?_, ?_, hnodup, fun x hx => ?_⟩, ?_, ?_⟩
  · unfold Opennop.dequeuePacket
    rw [h.head_eq]
    simp only [List.head?_cons, Buffers.load, hp, ok_bind, hqlen]
    rw [hm₁, ok_bind, hm₂, ok_bind]
    rfl
  · rw [hhead, Buffers.head_setHead]
    refine hseg.congr fun x hx => ?_
    have hne : x ≠ b := fun h => hbl (h ▸ hx)
    rw [hnext x, if_neg hne]
  · rw [hhead, Buffers.head_setHead]
    have hlast := h.last (List.cons_ne_nil b l)
    rwa [List.getLast?_cons_of_ne_nil hne] at hlast
  · rw [hhead, Buffers.head_setHead]
  · exact Queue.alloc_of_content hcontent (h.alloc x (List.mem_cons_of_mem b hx))
  · obtain ⟨p', hp'⟩ := Queue.alloc_of_content hcontent ⟨p, hp⟩
    have hbn := hnext b
    rw [if_pos rfl, Buffers.next, hp', Option.bind_some] at hbn
    exact ⟨p', hp', hbn⟩
  · refine ⟨fun n' hn' => ?_, fun x hx => ?_, hcontent⟩
    · have hne : n' ≠ n := fun h => hn' (List.mem_singleton.2 h)
      rw [hhead, Buffers.head_setHead_of_ne _ _ _ hne]
    · have hne : x ≠ b := fun h => hx (List.mem_singleton.2 h)
      exact (hnext x).trans (if_neg hne)

omit [DecidableEq B] in
/-- **The first half of a move** empties the source. -/
theorem Queue.takeQueued {k : N} (h : Queue m n l) (hk : k ≠ n) :
    Queue (takeQueued m n k) k l ∧ Queue (takeQueued m n k) n [] ∧
      Relinked m (takeQueued m n k) [n, k] [] := by
  have hhead : (Opennop.takeQueued m n k).head k = m.head n := by
    unfold Opennop.takeQueued
    rw [Buffers.head_setHead_of_ne _ _ _ hk, Buffers.head_setHead]
  have hempty : (Opennop.takeQueued m n k).head n = {} := Buffers.head_setHead _ _ _
  refine ⟨⟨?_, ?_, ?_, h.nodup, h.alloc⟩,
    ⟨?_, fun hne => absurd rfl hne, ?_, List.nodup_nil, ?_⟩, ?_⟩
  · rw [hhead]
    exact h.forward
  · rw [hhead]
    exact h.last
  · rw [hhead]
    exact h.qlen
  · rw [hempty]
    rfl
  · rw [hempty]
    rfl
  · intro b hb
    cases hb
  · refine ⟨fun n' hn' => ?_, fun x _ => rfl, fun x => rfl⟩
    rw [List.mem_cons, List.mem_singleton, not_or] at hn'
    unfold Opennop.takeQueued
    rw [Buffers.head_setHead_of_ne _ _ _ hn'.1, Buffers.head_setHead_of_ne _ _ _ hn'.2]

/-- **The second half of a move** adds at the end of the target. -/
theorem Queue.addQueued {k : N} {l' : List B} (h : Queue m k l') (hn : Queue m n l) (hk : k ≠ n)
    (hnil : l' ≠ []) (hdisj : ∀ b ∈ l, b ∉ l') (hlen : (l ++ l').length < 4294967296) :
    ∃ m', addQueued m k n = .ok (m', l'.length) ∧ Queue m' n (l ++ l') ∧ Queue m' k [] ∧
      Relinked m m' [n, k] l := by
  -- what is left of the local variables
  have hlocals : ∀ {m₁ : Buffers N B}, Queue (m₁.setHead k {}) k [] := fun {m₁} =>
    ⟨by rw [Buffers.head_setHead]; rfl,
      fun hne => absurd rfl hne, by rw [Buffers.head_setHead]; rfl,
      List.nodup_nil, fun b hb => nomatch hb⟩
  have hnodup : (l ++ l').Nodup := by
    rw [List.nodup_append]
    exact ⟨hn.nodup, h.nodup, fun a ha b hb hab => hdisj a ha (hab ▸ hb)⟩
  by_cases hl : l = []
  · subst hl
    refine ⟨(m.setHead n (m.head k)).setHead k {}, ?_, ⟨?_, ?_, ?_, h.nodup, h.alloc⟩, hlocals, ?_⟩
    · unfold Opennop.addQueued
      simp only [hn.head_eq, List.head?_nil, pure_eq_ok, ok_bind, h.qlen]
    · rw [Buffers.head_setHead_of_ne _ _ _ hk.symm, Buffers.head_setHead]
      exact h.forward
    · rw [Buffers.head_setHead_of_ne _ _ _ hk.symm, Buffers.head_setHead]
      exact h.last
    · rw [Buffers.head_setHead_of_ne _ _ _ hk.symm, Buffers.head_setHead]
      exact h.qlen
    · refine ⟨fun n' hn' => ?_, fun x _ => rfl, fun x => rfl⟩
      rw [List.mem_cons, List.mem_singleton, not_or] at hn'
      rw [Buffers.head_setHead_of_ne _ _ _ hn'.2, Buffers.head_setHead_of_ne _ _ _ hn'.1]
  obtain ⟨first, rest, rfl⟩ := List.exists_cons_of_ne_nil hnil
  obtain ⟨x, l₀, rfl⟩ := List.exists_cons_of_ne_nil hl
  obtain ⟨last, hlast⟩ : ∃ last, (x :: l₀).getLast? = some last :=
    ⟨_, List.getLast?_eq_some_getLast hl⟩
  have hmem : last ∈ x :: l₀ := List.mem_of_getLast? hlast
  have hprev : (m.head n).prev = some last := by rw [hn.last hl, hlast]
  obtain ⟨m₁, hm₁, hhead₁, hnext₁, hcontent₁⟩ :=
    setPrev_eq (h.alloc first List.mem_cons_self) (some last)
  obtain ⟨m₂, hm₂, hhead₂, hnext₂, hcontent₂⟩ :=
    setNext_eq (Queue.alloc_of_content hcontent₁ (hn.alloc last hmem)) (some first)
  have hcontent : ∀ y, m₂.content y = m.content y := fun y => (hcontent₂ y).trans (hcontent₁ y)
  have hnext : ∀ y, m₂.next y = if y = last then some first else m.next y := fun y => by
    rw [hnext₂ y, hnext₁ y]
  have hhead : m₂.head = m.head := hhead₂.trans hhead₁
  have hout : ∀ y, y ∉ x :: l₀ → m₂.next y = m.next y := fun y hy => by
    have hne : y ≠ last := fun h => hy (h ▸ hmem)
    rw [hnext y, if_neg hne]
  refine ⟨(m₂.setHead n { m.head n with
    prev := (m.head k).prev, qlen := (m.head n).qlen + (m.head k).qlen }).setHead k {}, ?_, ?_,
    hlocals, ?_⟩
  · rw [List.length_append] at hlen
    unfold Opennop.addQueued
    simp only [hn.head_eq, h.head_eq, hprev, List.head?_cons, hm₁, ok_bind, hm₂,
      pure_eq_ok, hn.qlen, h.qlen, Nat.mod_eq_of_lt hlen]
  · have hseg : Seg m₂.next (if x :: l₀ = [] then some first else (m.head n).next) (x :: l₀)
        (some first) := by
      refine hn.forward.retarget hn.nodup fun a _ => ?_
      rw [hnext a, hlast]
      simp [eq_comm]
    rw [if_neg hl] at hseg
    refine ⟨?_, fun _ => ?_, ?_, hnodup, fun y hy => ?_⟩
    · rw [Buffers.head_setHead_of_ne _ _ _ hk.symm, Buffers.head_setHead, Seg.append_iff]
      refine ⟨some first, hseg, ?_⟩
      have hforward := h.forward
      rw [h.head_eq] at hforward
      exact hforward.congr fun y hy => hout y fun hy' => hdisj y hy' hy
    · rw [Buffers.head_setHead_of_ne _ _ _ hk.symm, Buffers.head_setHead, h.last hnil,
        List.getLast?_append_of_ne_nil _ hnil]
    · rw [Buffers.head_setHead_of_ne _ _ _ hk.symm, Buffers.head_setHead, List.length_append,
        ← h.qlen, ← hn.qlen]
    · refine Queue.alloc_of_content hcontent ?_
      rcases List.mem_append.1 hy with hy | hy
      · exact hn.alloc y hy
      · exact h.alloc y hy
  · refine ⟨fun n' hn' => ?_, hout, hcontent⟩
    rw [List.mem_cons, List.mem_singleton, not_or] at hn'
    rw [Buffers.head_setHead_of_ne _ _ _ hn'.2, Buffers.head_setHead_of_ne _ _ _ hn'.1, hhead]

/-! ## Buffers that an operation does not touch -/

omit [DecidableEq N] [DecidableEq B] in
theorem Relinked.loose {m' : Buffers N B} {ns : List N} {bs : List B} (hr : Relinked m m' ns bs)
    (hb : b ∉ bs) (h : m.Loose b) : m'.Loose b := by
  obtain ⟨p', hp'⟩ := Queue.alloc_of_content hr.content (h.imp fun _ hp => hp.1)
  have hnext := hr.next b hb
  rw [h.next_eq, Buffers.next, hp', Option.bind_some] at hnext
  exact ⟨p', hp', hnext⟩

omit [DecidableEq N] in
theorem Buffers.heap_store_of_ne {x : B} (h : x ≠ b) (p : Packet B) :
    (m.store b p).heap x = m.heap x := by
  simp [Buffers.store, h]

omit [DecidableEq N] in
@[simp] theorem Buffers.heap_store_self (p : Packet B) : (m.store b p).heap b = some p := by
  simp [Buffers.store]

omit [DecidableEq N] in
theorem Queue.store (h : Queue m n l) (hb : b ∉ l) (p : Packet B) : Queue (m.store b p) n l := by
  have hheap : ∀ x ∈ l, (m.store b p).heap x = m.heap x := by
    intro x hx
    have hne : x ≠ b := fun hxb => hb (hxb ▸ hx)
    exact Buffers.heap_store_of_ne hne p
  refine ⟨h.forward.congr fun x hx => ?_, h.last, h.qlen, h.nodup, fun x hx => ?_⟩
  · rw [Buffers.next, hheap x hx, Buffers.next]
  · rw [hheap x hx]
    exact h.alloc x hx

omit [DecidableEq N] in
theorem Buffers.Loose.store {x : B} (h : m.Loose x) (hx : x ≠ b) (p : Packet B) :
    (m.store b p).Loose x := by
  unfold Buffers.Loose
  rw [Buffers.heap_store_of_ne hx]
  exact h

end Specs

end Opennop
