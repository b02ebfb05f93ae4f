import Mathlib.Data.Fintype.Option
import Opennop.Lib.Trace
import Opennop.Node.Pointers
import Opennop.Node.Records
import Opennop.Packet.SetOption

/-!
# Removals that race

The lock of a bucket covers the body of `clearsession`, not the lookup before it. So between the
time a worker or the cleanup thread gets a pointer and the time it removes the session, another
thread may remove the same one. `Threads` is the fetcher, any number of processors and the cleanup
thread on one table, each call and each step of the sweep by itself. In a run in which no thread
removes a session that another one is still working with, every session is unlinked once and the
counters are right.
-/

namespace Opennop

/-! ## The sweep step by step -/

/-- Where the cleanup thread is: between two buckets, at a session it is to look at, or about to
remove a session and to go on with the next. -/
inductive Walk (A : Type) where
  | idle
  | visiting (cur : A)
  | clearing (a : A) (next : Option A)

namespace Walk

variable {A : Type}

/-- On to the next session of the bucket. -/
def goOn : Option A → Walk A
  | some next => .visiting next
  | none => .idle

def targets : Walk A → List A
  | .idle => []
  | .visiting cur => [cur]
  | .clearing a next => a :: next.toList

def unlinks : Walk A → Option A
  | .clearing a _ => some a
  | _ => none

def Proper (t : Table A) : Walk A → Prop
  | .idle => True
  | .visiting cur => t.Live cur
  | .clearing a next => t.Live a ∧ ∀ x, next = some x → t.Live x ∧ x ≠ a

theorem Proper.goOn {t : Table A} {next : Option A} (h : ∀ x, next = some x → t.Live x) :
    (goOn next).Proper t := by
  cases next with
  | none => trivial
  | some x => exact h x rfl

theorem Proper.mono {t t' : Table A} {w : Walk A} (h : w.Proper t)
    (hlive : ∀ x ∈ w.targets, t.Live x → t'.Live x) : w.Proper t' := by
  cases w with
  | idle => trivial
  | visiting cur => exact hlive cur (List.mem_singleton.2 rfl) h
  | clearing a next =>
    refine ⟨hlive a List.mem_cons_self h.1, fun x hx => ?_⟩
    obtain ⟨hx', hne⟩ := h.2 x hx
    refine ⟨hlive x ?_ hx', hne⟩
    rw [hx]
    exact List.mem_cons_of_mem a (List.mem_singleton.2 rfl)

end Walk

section Sweep

variable {A : Type} [DecidableEq A]

/-- The part of a pass of `cleanuplist` before the removal. -/
def cleanuplistLook (t : Table A) (cur : A) : Exec (Table A × Walk A) := do
  let n ← t.load cur
  if n.session.deadcounter > 2 then
    match n.next with
    | some next =>
      let m ← t.load next
      match m.prev with
      | some prev => return (t, .clearing prev (some next))
      | none => return (t, .visiting next)
    | none => return (t, .clearing cur none)
  else return (t.store cur { n with session := age n.session }, .goOn n.next)

/-- A pass of `cleanuplist` is the look and then the removal. -/
theorem cleanuplistPass_eq_look (t : Table A) (cur : A) : cleanuplistPass (t, cur) = (do
    match ← cleanuplistLook t cur with
    | (t, .clearing a (some next)) => do
      let t ← clearsession t a
      return .again (t, next)
    | (t, .clearing a none) => do
      let t ← clearsession t a
      return .done t
    | (t, .visiting next) => return .again (t, next)
    | (t, .idle) => return .done t) := by
  unfold cleanuplistPass cleanuplistLook
  dsimp only
  cases t.load cur with
  | error e => rfl
  | ok n =>
    by_cases hd : n.session.deadcounter > 2
    · simp only [ok_bind, if_pos hd]
      cases n.next with
      | none => rfl
      | some next =>
        dsimp only
        cases t.load next with
        | error e => rfl
        | ok m =>
          simp only [ok_bind]
          cases m.prev <;> rfl
    · simp only [ok_bind, if_neg hd]
      cases hnext : n.next <;> rfl

/-- **The look** finds what it needs, and leaves the pointers in order. -/
theorem Refines.cleanuplistLook {t : Table A} {σ : Store A} (h : Refines t σ) {cur : A}
    (hcur : t.Live cur) : ∃ t' σ' w, Opennop.cleanuplistLook t cur = .ok (t', w) ∧ Refines t' σ' ∧
      w.Proper t' ∧ ∀ x, t'.Live x ↔ t.Live x := by
  obtain ⟨n, hn⟩ := hcur
  unfold Opennop.cleanuplistLook
  simp only [Table.load, hn, ok_bind]
  by_cases hd : n.session.deadcounter > 2
  · rw [if_pos hd]
    cases hnext : n.next with
    | none =>
      exact ⟨t, σ, _, rfl, h, ⟨⟨n, hn⟩, fun x hx => by cases hx⟩, fun x => Iff.rfl⟩
    | some next =>
      obtain ⟨-, m, hm, -⟩ := h.neighbour hn (.inl hnext)
      simp only [hm, ok_bind]
      cases hprev : m.prev with
      | none => exact ⟨t, σ, _, rfl, h, ⟨m, hm⟩, fun x => Iff.rfl⟩
      | some prev =>
        obtain ⟨hne, m', hm', -⟩ := h.neighbour hm (.inr hprev)
        refine ⟨t, σ, _, rfl, h, ⟨⟨m', hm'⟩, fun x hx => ?_⟩, fun x => Iff.rfl⟩
        obtain rfl := Option.some.inj hx
        exact ⟨⟨m, hm⟩, hne.symm⟩
  · rw [if_neg hd]
    have hlive : ∀ x, (t.store cur { n with session := age n.session }).Live x ↔ t.Live x :=
      fun x => live_store ⟨n, hn⟩
    refine ⟨_, _, _, rfl, h.modified hn Refines.key_age Refines.queue_age, ?_, hlive⟩
    refine Walk.Proper.goOn fun x hx => ?_
    obtain ⟨-, m, hm, -⟩ := h.neighbour hn (.inl hx)
    exact (hlive x).2 ⟨m, hm⟩

end Sweep

/-! ## The threads -/

/-- The session table and the threads that use it: `none` is the fetcher, `some i` a processor. With
them how often a session was inserted at an address and how often one there was unlinked, and
whether a call was made on an address without a session. -/
structure Threads (ι A : Type) where
  table : Table A
  prog : Option ι → Option (Prog A Verdict)
  walk : Walk A
  inserted : A → Nat
  unlinked : A → Nat
  stale : Bool

inductive ThreadStep (ι A : Type) where
  /-- The fetcher gets a packet from the kernel. -/
  | packet (env : Env) (id ret : Nat) (buffer : Bool) (p : Mem)
  /-- A processor takes a packet from its queue; `reread` is in the buffer if it is read once
  more. -/
  | dequeue (i : ι) (env : Env) (reread p : Mem)
  /-- The next call of a thread; `calloc` is the result of an allocation in it. -/
  | call (th : Option ι) (calloc : Option A)
  /-- A thread is done with its packet. -/
  | verdict (th : Option ι)
  /-- The cleanup thread begins with a bucket. -/
  | sweep (b : Nat)
  /-- It looks at the session it is at. -/
  | look
  /-- It removes the session it has found dead. -/
  | clear

/-- The thread has crashed in the middle of a packet. -/
def Prog.crashed {A α : Type} : Prog A α → Bool
  | .fault _ => true
  | _ => false

def Prog.finished {A α : Type} : Prog A α → Bool
  | .done _ => true
  | _ => false

namespace Threads

section Steps

variable {ι A : Type} [DecidableEq ι] [DecidableEq A] [Fintype A] (workers : Nat)

def start : Threads ι A :=
  ⟨initializeSessiontable A, fun _ => none, .idle, fun _ => 0, fun _ => 0, false⟩

def count (f : A → Nat) (o : Option A) : A → Nat := fun x => if o = some x then f x + 1 else f x

def assign (s : Threads ι A) (th : Option ι) (c : Prog A Verdict) : Threads ι A :=
  if s.prog th = none then { s with prog := Function.update s.prog th (some c) } else s

def perform (s : Threads ι A) (th : Option ι) (calloc : Option A) (c : Prog A Verdict) :
    Threads ι A :=
  match c.next workers calloc s.table with
  | .ok (t, c') =>
    { s with
      table := t
      prog := Function.update s.prog th (some c')
      inserted := count s.inserted (c.allocates calloc)
      unlinked := count s.unlinked c.unlinks }
  | .error _ => { s with stale := true, unlinked := count s.unlinked c.unlinks }

def call (s : Threads ι A) (th : Option ι) (calloc : Option A) : Threads ι A :=
  match s.prog th with
  | none => s
  | some c => if c.crashed then s else s.perform workers th calloc c

def verdict (s : Threads ι A) (th : Option ι) : Threads ι A :=
  match s.prog th with
  | none => s
  | some c => if c.finished then { s with prog := Function.update s.prog th none } else s

def sweep (s : Threads ι A) (b : Nat) : Threads ι A :=
  match s.walk with
  | .idle => { s with walk := .goOn (s.table.bucket b).next }
  | _ => s

def look (s : Threads ι A) : Threads ι A :=
  match s.walk with
  | .visiting cur =>
    match cleanuplistLook s.table cur with
    | .ok (t, w) => { s with table := t, walk := w }
    | .error _ => { s with stale := true }
  | _ => s

def clear (s : Threads ι A) : Threads ι A :=
  match s.walk with
  | .clearing a next =>
    match clearsession s.table a with
    | .ok t =>
      { s with table := t, walk := .goOn next, unlinked := count s.unlinked (some a) }
    | .error _ => { s with stale := true, unlinked := count s.unlinked (some a) }
  | _ => s

def step (s : Threads ι A) : ThreadStep ι A → Threads ι A
  | .packet env id ret buffer p => s.assign none (fetcherCallback env id ret buffer p)
  | .dequeue i env reread p => s.assign (some i) (workerThread env reread p)
  | .call th calloc => s.call workers th calloc
  | .verdict th => s.verdict th
  | .sweep b => s.sweep b
  | .look => s.look
  | .clear => s.clear

/-- The allocator returns a block that is not in use. -/
def Allowed (s : Threads ι A) : ThreadStep ι A → Prop
  | .call _ calloc => ∀ a, calloc = some a → s.table.heap a = none
  | _ => True

def target (s : Threads ι A) (th : Option ι) : Option A := (s.prog th).bind Prog.target

/-- A thread that removes a session is the only one that works with it. -/
def Exclusive (s : Threads ι A) : ThreadStep ι A → Prop
  | .call th _ => ∀ a, (s.prog th).bind Prog.unlinks = some a →
      (∀ th', th' ≠ th → s.target th' ≠ some a) ∧ a ∉ s.walk.targets
  | .clear => ∀ a, s.walk.unlinks = some a → ∀ th, s.target th ≠ some a
  | _ => True

instance (s : Threads ι A) : ∀ st, Decidable (s.Allowed st)
  | .call _ calloc => inferInstanceAs (Decidable (∀ a, calloc = some a → s.table.heap a = none))
  | .packet _ _ _ _ _ => .isTrue trivial
  | .dequeue _ _ _ _ => .isTrue trivial
  | .verdict _ => .isTrue trivial
  | .sweep _ => .isTrue trivial
  | .look => .isTrue trivial
  | .clear => .isTrue trivial

instance [Fintype ι] (s : Threads ι A) : ∀ st, Decidable (s.Exclusive st)
  | .call th _ => inferInstanceAs (Decidable (∀ a, (s.prog th).bind Prog.unlinks = some a →
      (∀ th', th' ≠ th → s.target th' ≠ some a) ∧ a ∉ s.walk.targets))
  | .clear =>
    inferInstanceAs (Decidable (∀ a, s.walk.unlinks = some a → ∀ th, s.target th ≠ some a))
  | .packet _ _ _ _ _ => .isTrue trivial
  | .dequeue _ _ _ _ => .isTrue trivial
  | .verdict _ => .isTrue trivial
  | .sweep _ => .isTrue trivial
  | .look => .isTrue trivial

/-- **The table is in order**: no session was unlinked twice, `qlen` is the number of sessions that
are linked in the bucket, and `workers[i].sessions` the number of sessions that worker `i` has. -/
structure Consistent (s : Threads ι A) : Prop where
  once : ∀ a, s.unlinked a ≤ s.inserted a
  qlen : ∀ b, ∃ l : List A, DList s.table.next s.table.prev (s.table.bucket b).next
    (s.table.bucket b).prev l ∧ (∀ a, a ∈ l ↔ ∃ n, s.table.heap a = some n ∧ n.head = b) ∧
    (s.table.bucket b).qlen = l.length
  sessions : ∀ i, s.table.sessions i =
    (Finset.univ.filter fun a => (s.table.heap a).map (·.session.queue) = some i).card
  fresh : s.stale = false

end Steps

/-! ## The invariant -/

section Invariant

variable {ι A : Type}

/-- The pointer of a thread is in order. -/
def Held (t : Table A) (th : Option (Prog A Verdict)) : Prop :=
  ∀ c, th = some c → (∃ o, c.Proper o) ∧ ∀ a, c.target = some a → t.Live a

/-- Every pointer in use is in order, and the sessions at an address are inserted and unlinked in
turn. -/
structure InOrder (s : Threads ι A) : Prop where
  refines : ∃ σ, Refines s.table σ
  held : ∀ th, Held s.table (s.prog th)
  walk : s.walk.Proper s.table
  turn : ∀ a, (s.table.Live a ∧ s.inserted a = s.unlinked a + 1) ∨
    (¬ s.table.Live a ∧ s.inserted a = s.unlinked a)
  fresh : s.stale = false

theorem InOrder.start : (start : Threads ι A).InOrder where
  refines := ⟨[], Refines.init⟩
  held _ _ h := nomatch h
  walk := trivial
  turn _ := .inr ⟨fun ⟨_, hn⟩ => (nomatch hn), rfl⟩
  fresh := rfl

theorem card_queue [DecidableEq A] [Fintype A] {t : Table A} {σ : Store A} (h : Refines t σ)
    (i : Nat) : (Finset.univ.filter fun a => (t.heap a).map (·.session.queue) = some i).card =
      σ.countP fun e => e.2.queue = i := by
  have hnodup : ((σ.filter fun e => e.2.queue = i).map Prod.fst).Nodup :=
    h.nodup.sublist (List.filter_sublist.map Prod.fst)
  have hset : (Finset.univ.filter fun a => (t.heap a).map (·.session.queue) = some i) =
      ((σ.filter fun e => e.2.queue = i).map Prod.fst).toFinset := by
    ext a
    simp only [Finset.mem_filter, Finset.mem_univ, true_and, Option.map_eq_some_iff,
      List.mem_toFinset, List.mem_map, List.mem_filter, decide_eq_true_eq]
    constructor
    · rintro ⟨n, hn, hq⟩
      exact ⟨(a, n.session), ⟨h.mem_of_heap hn, hq⟩, rfl⟩
    · rintro ⟨⟨a', s⟩, ⟨hm, hq⟩, rfl⟩
      obtain ⟨n, hn, rfl⟩ := h.heap_of_mem hm
      exact ⟨n, hn, hq⟩
  rw [hset, List.toFinset_card_of_nodup hnodup, List.length_map, List.countP_eq_length_filter]

variable [DecidableEq ι] [DecidableEq A] [Fintype A] {s : Threads ι A}

omit [DecidableEq ι] in
theorem InOrder.consistent (h : s.InOrder) : s.Consistent := by
  obtain ⟨σ, hσ⟩ := h.refines
  refine ⟨fun a => ?_, fun b => ⟨σ.inBucket b, hσ.links b, fun a => ?_, hσ.qlen b⟩, fun i => ?_,
    h.fresh⟩
  · rcases h.turn a with ⟨-, ha⟩ | ⟨-, ha⟩
    · omega
    · omega
  · constructor
    · intro ha
      exact hσ.heap_of_mem_bucket ha
    · rintro ⟨n, hn, hb⟩
      exact (hσ.mem_bucket_iff hn).2 hb
  · rw [hσ.sessions i, card_queue hσ]

omit [Fintype A] [DecidableEq A] in
theorem InOrder.assign (h : s.InOrder) (th : Option ι) {c : Prog A Verdict} (hc : c.Proper none) :
    (s.assign th c).InOrder := by
  unfold Threads.assign
  split
  · refine ⟨h.refines, ?_, h.walk, h.turn, h.fresh⟩
    refine (Function.forall_update_iff s.prog fun _ c' => Held s.table c').2
      ⟨?_, fun th' _ => h.held th'⟩
    intro c' hc'
    obtain rfl := Option.some.inj hc'
    exact ⟨⟨none, hc⟩, fun a ha => nomatch hc.target_eq ha⟩
  · exact h

omit [Fintype A] [DecidableEq A] in
theorem InOrder.verdict (h : s.InOrder) (th : Option ι) : (s.verdict th).InOrder := by
  unfold Threads.verdict
  cases s.prog th with
  | none => exact h
  | some c =>
    dsimp only
    split
    · refine ⟨h.refines, ?_, h.walk, h.turn, h.fresh⟩
      refine (Function.forall_update_iff s.prog fun _ c' => Held s.table c').2
        ⟨fun c' hc' => (nomatch hc'), fun th' _ => h.held th'⟩
    · exact h

omit [DecidableEq ι] [Fintype A] in
/-- The sessions are still inserted and unlinked in turn after a call that inserts at `new` and
unlinks at `old`. -/
theorem InOrder.turn_count (h : s.InOrder) {t : Table A} {new old : Option A}
    (hnew : ∀ a, new = some a → ¬ s.table.Live a) (hold : ∀ a, old = some a → s.table.Live a)
    (hlive : ∀ x, t.Live x ↔ (s.table.Live x ∨ new = some x) ∧ old ≠ some x) (a : A) :
    (t.Live a ∧ count s.inserted new a = count s.unlinked old a + 1) ∨
      (¬ t.Live a ∧ count s.inserted new a = count s.unlinked old a) := by
  unfold count
  rw [hlive]
  by_cases ha : new = some a
  · have ho : old ≠ some a := fun ho => hnew a ha (hold a ho)
    rcases h.turn a with ⟨hl, -⟩ | ⟨-, hn⟩
    · exact absurd hl (hnew a ha)
    · rw [if_pos ha, if_neg ho]
      exact .inl ⟨⟨.inr ha, ho⟩, by rw [hn]⟩
  · by_cases ho : old = some a
    · rcases h.turn a with ⟨-, hn⟩ | ⟨hl, -⟩
      · rw [if_neg ha, if_pos ho]
        exact .inr ⟨fun hboth => hboth.2 ho, hn⟩
      · exact absurd (hold a ho) hl
    · rw [if_neg ha, if_neg ho]
      rcases h.turn a with ⟨hl, hn⟩ | ⟨hl, hn⟩
      · exact .inl ⟨⟨.inl hl, ho⟩, hn⟩
      · exact .inr ⟨fun hboth => hboth.1.elim hl ha, hn⟩

omit [DecidableEq ι] [DecidableEq A] [Fintype A] in
/-- The pointers of a thread are in order after a change that leaves the session it works with. -/
theorem Held.mono {t t' : Table A} {th : Option (Prog A Verdict)} (h : Held t th)
    (hlive : ∀ a, th.bind Prog.target = some a → t.Live a → t'.Live a) : Held t' th := by
  intro c hc
  refine ⟨(h c hc).1, fun a ha => hlive a ?_ ((h c hc).2 a ha)⟩
  rw [hc]
  exact ha

variable (hcard : Fintype.card A < 4294967296) (workers : Nat)
include hcard

/-- **A call** of a thread that removes no session another one works with. -/
theorem InOrder.call (h : s.InOrder) {th : Option ι} {calloc : Option A}
    (ha : s.Allowed (.call th calloc)) (hx : s.Exclusive (.call th calloc)) :
    (s.call workers th calloc).InOrder := by
  unfold Threads.call
  cases hprog : s.prog th with
  | none => exact h
  | some c =>
    dsimp only
    split
    · exact h
    · rename_i hcrash
      obtain ⟨⟨o, hc⟩, htarget⟩ := h.held th c hprog
      obtain ⟨σ, hσ⟩ := h.refines
      have hfault : ∀ e, c ≠ .fault e := fun e he => hcrash (by rw [he]; rfl)
      obtain ⟨t', σ', c', o', hnext, hσ', hc', htarget', hlive⟩ :=
        hc.next hcard workers hσ htarget ha hfault
      -- no other pointer is to the session that is removed
      have hother : ∀ a, c.unlinks = some a →
          (∀ th', th' ≠ th → s.target th' ≠ some a) ∧ a ∉ s.walk.targets := by
        intro a ho
        refine hx a ?_
        rw [hprog]
        exact ho
      unfold perform
      rw [hnext]
      refine ⟨⟨σ', hσ'⟩, ?_, ?_, ?_, h.fresh⟩
      · refine (Function.forall_update_iff s.prog fun _ c' => Held t' c').2 ⟨?_, fun th' hth => ?_⟩
        · intro c'' hc''
          obtain rfl := Option.some.inj hc''
          exact ⟨⟨o', hc'⟩, htarget'⟩
        · refine (h.held th').mono fun a hth' hl => (hlive a).2 ⟨.inl hl, fun ho => ?_⟩
          exact (hother a ho).1 th' hth hth'
      · exact h.walk.mono fun x hx' hl => (hlive x).2 ⟨.inl hl, fun ho => (hother x ho).2 hx'⟩
      · refine h.turn_count (fun a hnew => ?_)
          (fun a ho => htarget a (Prog.unlinks_target ho)) hlive
        have hcalloc : calloc = some a := by
          cases c with
          | insertsession k next => exact hnew
          | _ => cases hnew
        rintro ⟨n, hn⟩
        rw [ha a hcalloc] at hn
        cases hn

omit hcard [DecidableEq ι] [DecidableEq A] [Fintype A] in
theorem InOrder.sweep (h : s.InOrder) (b : Nat) : (s.sweep b).InOrder := by
  unfold Threads.sweep
  split
  · refine ⟨h.refines, h.held, Walk.Proper.goOn fun x hx => ?_, h.turn, h.fresh⟩
    obtain ⟨σ, hσ⟩ := h.refines
    rw [(hσ.links b).head_eq] at hx
    obtain ⟨n, hn, -⟩ := hσ.heap_of_mem_bucket (List.mem_of_head? hx)
    exact ⟨n, hn⟩
  · exact h

omit hcard [DecidableEq ι] [Fintype A] in
theorem InOrder.look (h : s.InOrder) : s.look.InOrder := by
  unfold Threads.look
  split
  · rename_i cur hwalk
    have hcur : s.table.Live cur := by
      have hw := h.walk
      rwa [hwalk] at hw
    obtain ⟨σ, hσ⟩ := h.refines
    obtain ⟨t', σ', w, hlook, hσ', hw, hlive⟩ := hσ.cleanuplistLook hcur
    rw [hlook]
    refine ⟨⟨σ', hσ'⟩, fun th => (h.held th).mono fun a _ ha => (hlive a).2 ha, hw,
      fun a => ?_, h.fresh⟩
    change (t'.Live a ∧ _) ∨ (¬ t'.Live a ∧ _)
    rw [hlive]
    exact h.turn a
  · exact h

omit [DecidableEq ι] in
/-- **The removal of the sweep**, of a session no thread works with. -/
theorem InOrder.clear (h : s.InOrder) (hx : s.Exclusive .clear) : s.clear.InOrder := by
  unfold Threads.clear
  split
  · rename_i a next hwalk
    have hw := h.walk
    rw [hwalk] at hw
    obtain ⟨⟨n, hn⟩, hnext⟩ := hw
    obtain ⟨σ, hσ⟩ := h.refines
    rw [hσ.clearsession_eq hn]
    refine ⟨⟨_, hσ.removed hcard hn⟩, fun th => ?_, Walk.Proper.goOn fun x hx' => ?_, ?_, h.fresh⟩
    · refine (h.held th).mono fun b hb hl => live_removed.2 ⟨hl, fun hba => ?_⟩
      refine hx a ?_ th (hba ▸ hb)
      rw [hwalk]
      rfl
    · exact live_removed.2 (hnext x hx')
    · refine @turn_count _ _ _ _ h _ none (some a) (fun b hb => nomatch hb)
        (fun b hb => ?_) fun x => ?_
      · obtain rfl := Option.some.inj hb
        exact ⟨n, hn⟩
      · rw [live_removed]
        simp [eq_comm]
  · exact h

/-- **One step.** -/
theorem InOrder.step (h : s.InOrder) {st : ThreadStep ι A} (ha : s.Allowed st)
    (hx : s.Exclusive st) : (s.step workers st).InOrder := by
  cases st with
  | packet env id ret buffer p =>
    exact h.assign none (fetcherCallback_about env p id ret buffer).proper
  | dequeue i env reread p =>
    exact h.assign (some i) (workerThread_about env p reread).proper
  | call th calloc => exact h.call hcard workers ha hx
  | verdict th => exact h.verdict th
  | sweep b => exact h.sweep b
  | look => exact h.look
  | clear => exact h.clear hcard hx

/-- **Sessions are unlinked once when removals are exclusive.** Every run of the fetcher, the
processors and the cleanup thread in which no thread removes a session that another one is working
with, in any order of their calls. -/
theorem consistent_always {l : List (ThreadStep ι A)}
    (ha : Trace.Along (step workers) Allowed start l)
    (hx : Trace.Along (step workers) Exclusive start l) :
    Trace.Always (step workers) Consistent start l := by
  have hboth := Trace.along_and.2 ⟨ha, hx⟩
  have horder : Trace.Always (step workers) InOrder start l :=
    Trace.Always.of_step (fun s st hs hst => hs.step hcard workers hst.1 hst.2) InOrder.start hboth
  exact horder.mono fun s hs => hs.consistent

end Invariant

/-! ## Two resets of one connection -/

/-- A node with one neighbor, 2.2.2.2, in state UP. -/
def meshEnv : Env :=
  { idleEnv with
    neighbors := [{ neighborIP := 1, state := .up, id := ⟨2, 2, 2, 2⟩, key := .empty }] }

def clientReset : Mem :=
  Mem.ofList [0x45, 0, 0, 40, 0, 0, 0, 0, 64, 6, 0, 0, 10, 0, 0, 1, 10, 0, 0, 2,
    0x30, 0x39, 0, 80, 0, 0, 0, 2, 0, 0, 0, 0, 0x50, 4, 0xff, 0xff, 0, 0, 0, 0]

/-- A reset of the server with an acknowledgement, which the neighbor has tagged. -/
def serverReset : Mem :=
  Mem.ofList ([0x45, 0, 0, 52, 0, 0, 0, 0, 64, 6, 0, 0, 10, 0, 0, 2, 10, 0, 0, 1,
    0, 80, 0x30, 0x39, 0, 0, 0, 2, 0, 0, 0, 0, 0x80, 0x14, 0xff, 0xff, 0, 0, 0, 0] ++
      (tag (OpennopId.bytes ⟨2, 2, 2, 2⟩)).encode)

/-- The processor of a worker whose queue a packet was put into: one optimizes, one deoptimizes. -/
def processorOf : Option (Prog (Fin 1) Verdict) → Option (Nat × Bool)
  | some (.done (.optimize queue _)) => some (queue, false)
  | some (.done (.deoptimize queue _)) => some (queue, true)
  | _ => none

/-- The fetcher inserts a session for a SYN and gets a reset of the client. -/
def clientResets : List (ThreadStep Bool (Fin 1)) :=
  [.packet meshEnv 1 40 true bareSyn, .call none none, .call none (some 0), .call none none,
    .call none none, .call none none, .verdict none,
    .packet meshEnv 2 40 true clientReset, .call none none, .call none none]

def bothReset : List (ThreadStep Bool (Fin 1)) :=
  clientResets ++ [.verdict none, .packet meshEnv 3 52 true serverReset, .call none none,
    .call none none]

/-- Each of the two processors takes one of them, looks the session up and gets to its removal. -/
def bothHold : List (ThreadStep Bool (Fin 1)) :=
  bothReset ++ [.verdict none, .dequeue false meshEnv clientReset clientReset,
    .call (some false) none, .dequeue true meshEnv serverReset serverReset, .call (some true) none,
    .call (some true) none, .call (some true) none]

/-- One processor removes the session. -/
theorem consistent_always_oneReset : Trace.Always (step 1) Consistent start (clientResets ++
    [.verdict none, .dequeue false meshEnv clientReset clientReset, .call (some false) none,
      .call (some false) none]) := by
  refine consistent_always (by decide) 1 ?_ ?_
  · decide +kernel
  · decide +kernel

/-- The resets of the two endpoints wait for different processors of one worker, and both remove the
session: it was inserted once and is unlinked twice. If `free` leaves the block as it is, `qlen` and
`workers[0].sessions` wrap around. -/
theorem not_consistent_twoResets :
    processorOf ((Trace.run (step 1) start clientResets).prog none) = some (0, false) ∧
      processorOf ((Trace.run (step 1) start bothReset).prog none) = some (0, true) ∧
      Trace.Along (step 1) Allowed start
        (bothHold ++ [.call (some false) none, .call (some true) none]) ∧
      ¬ Trace.Always (step 1) Consistent start
        (bothHold ++ [.call (some false) none, .call (some true) none]) ∧
      ((clearsession
        { Trace.run (step 1) start (bothHold ++ [.call (some false) none]) |>.table with
          heap := (Trace.run (step 1) start bothHold).table.heap } 0).map fun t =>
          ((t.bucket (hashOf bareSyn.key)).qlen, t.sessions 0)) = .ok (4294967295, 4294967295) := by
  refine ⟨by decide +kernel, by decide +kernel, by decide +kernel, fun h => ?_, by decide +kernel⟩
  have honce := h.last.once 0
  revert honce
  decide +kernel

end Threads

end Opennop
