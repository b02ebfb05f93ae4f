import Opennop.Session.Refine

/-!
# Runs of the session table

A run is a list of complete calls: insertions with what the allocator returned, removals, sweeps,
and the changes the fetcher and the workers make to a record in between. The same list has a meaning
over the keyed list of `Opennop.Session.Store`, and the table stays a representation of it.

The counters are 32 bits wide: the allocator is assumed to hand out fewer than `2 ^ 32` blocks.
-/

namespace Opennop

variable {A : Type} [DecidableEq A]

inductive Op (A : Type) where
  /-- `insertsession` for a connection, with the result of its allocation -/
  | insert (calloc : Option A) (k : Key)
  /-- `clearsession` -/
  | clear (a : A)
  /-- `cleanuplist` of a bucket -/
  | sweep (b : Nat)
  /-- A change of the record of a session. -/
  | update (a : A) (f : Session → Session)

def Table.step [Fintype A] (workers : Nat) (t : Table A) : Op A → Exec (Table A)
  | .insert calloc k => do
    let (t, _) ← insertsession workers t calloc k
    return t
  | .clear a => clearsession t a
  | .sweep b => cleanuplist t b
  | .update a f => t.modify a f

def Table.run [Fintype A] (workers : Nat) : Table A → List (Op A) → Exec (Table A)
  | t, [] => .ok t
  | t, op :: ops => do
    let t ← t.step workers op
    t.run workers ops

namespace Store

/-- The worker a new session is given to: one with the fewest sessions. -/
def queueFor (workers : Nat) (σ : Store A) : Nat :=
  pickQueue workers fun i => σ.countP fun e => e.2.queue = i

def step (workers : Nat) (σ : Store A) : Op A → Store A
  | .insert none _ => σ
  | .insert (some a) k => σ.insert a (newSession k (queueFor workers σ))
  | .clear a => σ.clear a
  | .sweep b => σ.sweep b
  | .update a f => σ.modify a f

def run (workers : Nat) : Store A → List (Op A) → Store A
  | σ, [] => σ
  | σ, op :: ops => (σ.step workers op).run workers ops

/-- What a caller must see to: the allocator returns a block that is not in use, a session that is
removed or changed is in the table, and a change leaves its connection and its worker. -/
def Allows (σ : Store A) : Op A → Prop
  | .insert none _ => True
  | .insert (some a) _ => a ∉ σ.map Prod.fst
  | .clear a => a ∈ σ.map Prod.fst
  | .sweep _ => True
  | .update a f =>
    a ∈ σ.map Prod.fst ∧ (∀ s, (f s).key = s.key) ∧ ∀ s, (f s).queue = s.queue

def AllowsRun (workers : Nat) : Store A → List (Op A) → Prop
  | _, [] => True
  | σ, op :: ops => σ.Allows op ∧ (σ.step workers op).AllowsRun workers ops

omit [DecidableEq A] in
theorem lookup_eq_none {σ : Store A} {k : Key} : σ.lookup k = none ↔ ∀ e ∈ σ, e.2.key ≠ k := by
  simp [lookup]

end Store

theorem pickQueue_lt {workers : Nat} (hw : 0 < workers) (sessions : Nat → Nat) :
    pickQueue workers sessions < workers := by
  unfold pickQueue
  refine List.foldlRecOn (motive := (· < workers)) _ _ hw fun q hq i hi => ?_
  split
  · exact List.mem_range.1 hi
  · exact hq

/-! ## One call -/

namespace Refines

variable {t : Table A} {σ : Store A}

omit [DecidableEq A] in
theorem mem_iff (h : Refines t σ) {a : A} : a ∈ σ.map Prod.fst ↔ ∃ n, t.heap a = some n := by
  constructor
  · intro ha
    obtain ⟨⟨a, s⟩, hm, rfl⟩ := List.mem_map.1 ha
    obtain ⟨n, hn, -⟩ := h.heap_of_mem hm
    exact ⟨n, hn⟩
  · rintro ⟨n, hn⟩
    exact List.mem_map.2 ⟨_, h.mem_of_heap hn, rfl⟩

omit [DecidableEq A] in
theorem free_iff (h : Refines t σ) {a : A} : a ∉ σ.map Prod.fst ↔ t.heap a = none := by
  rw [h.mem_iff]
  cases t.heap a <;> simp

variable [Fintype A] (hcard : Fintype.card A < 4294967296) (workers : Nat)
include hcard

/-- **Every allowed call returns**, and the table it leaves represents the list the call leaves. -/
theorem step (h : Refines t σ) {op : Op A} (hop : σ.Allows op) :
    ∃ t', t.step workers op = .ok t' ∧ Refines t' (σ.step workers op) := by
  cases op with
  | insert calloc k =>
    cases calloc with
    | none => exact ⟨t, rfl, h⟩
    | some a =>
      have ha := h.free_iff.1 hop
      refine ⟨_, by rw [Table.step, h.insertsession_eq ha]; rfl, ?_⟩
      have hq : t.sessions = fun i => σ.countP fun e => e.2.queue = i := funext h.sessions
      rw [hq]
      exact h.inserted hcard ha k _
  | clear a =>
    obtain ⟨n, hn⟩ := h.mem_iff.1 hop
    exact ⟨_, h.clearsession_eq hn, h.removed hcard hn⟩
  | sweep b => exact h.cleanuplist hcard b
  | update a f =>
    obtain ⟨ha, hkey, hqueue⟩ := hop
    obtain ⟨n, hn⟩ := h.mem_iff.1 ha
    refine ⟨_, ?_, h.modified hn hkey hqueue⟩
    simp only [Table.step, Table.modify, Table.load, hn, ok_bind, pure_eq_ok]

theorem run (h : Refines t σ) {ops : List (Op A)} (hops : σ.AllowsRun workers ops) :
    ∃ t', t.run workers ops = .ok t' ∧ Refines t' (σ.run workers ops) := by
  induction ops generalizing t σ with
  | nil => exact ⟨t, rfl, h⟩
  | cons op ops ih =>
    obtain ⟨t₁, hstep, h₁⟩ := h.step hcard workers hops.1
    obtain ⟨t', hrun, h'⟩ := ih h₁ hops.2
    exact ⟨t', by rw [Table.run, hstep, ok_bind, hrun], h'⟩

end Refines

/-! ## The workers of the sessions -/

namespace Store

variable {σ : Store A} {workers : Nat}

/-- Every session has a worker that runs. -/
def Assigned (workers : Nat) (σ : Store A) : Prop := ∀ e ∈ σ, e.2.queue < workers

theorem Assigned.step (hw : 0 < workers) (h : σ.Assigned workers) {op : Op A} (hop : σ.Allows op) :
    (σ.step workers op).Assigned workers := by
  intro e he
  cases op with
  | insert calloc k =>
    cases calloc with
    | none => exact h e he
    | some a =>
      rcases List.mem_append.1 he with he | he
      · exact h e he
      · rw [List.mem_singleton.1 he]
        exact pickQueue_lt hw _
  | clear a => exact h e (List.mem_of_mem_filter he)
  | sweep b =>
    obtain ⟨e', he', heq⟩ := List.mem_filterMap.1 he
    have := h e' he'
    split at heq
    · split at heq
      · cases heq
      · rw [← Option.some.inj heq]
        exact this
    · rwa [← Option.some.inj heq]
  | update a f =>
    obtain ⟨e', he', rfl⟩ := List.mem_map.1 he
    have := h e' he'
    split
    · rw [hop.2.2]
      exact this
    · exact this

theorem Assigned.run (hw : 0 < workers) (h : σ.Assigned workers) {ops : List (Op A)}
    (hops : σ.AllowsRun workers ops) : (σ.run workers ops).Assigned workers := by
  induction ops generalizing σ with
  | nil => exact h
  | cons op ops ih => exact ih (h.step hw hops.1) hops.2

end Store

/-! ## Every run from the start -/

/-- **The session table refines a keyed list.** After any allowed sequence of complete calls the two
chains of every bucket, its counter, the head fields and the counters of the workers are right, and
a lookup returns the earliest inserted session of the connection that is still there. -/
theorem table_refines_store [Fintype A] (hcard : Fintype.card A < 4294967296) {workers : Nat}
    (hworkers : 0 < workers) (ops : List (Op A)) (hops : Store.AllowsRun workers [] ops) :
    ∃ t, (initializeSessiontable A).run workers ops = .ok t ∧
      Refines t (Store.run workers [] ops) ∧
      (∀ e ∈ Store.run workers [] ops, e.2.queue < workers) ∧
      ∀ k, getsession t k = .ok ((Store.run workers [] ops).lookup k) ∧
        (getsession t k = .ok none ↔ ∀ e ∈ Store.run workers [] ops, e.2.key ≠ k) := by
  obtain ⟨t, hrun, h⟩ := Refines.init.run hcard workers hops
  refine ⟨t, hrun, h, ?_, fun k => ⟨h.getsession k, ?_⟩⟩
  · exact Store.Assigned.run hworkers (fun e he => absurd he List.not_mem_nil) hops
  · rw [h.getsession k, Except.ok.injEq]
    exact Store.lookup_eq_none

/-- Two connections of one bucket, one of them twice, a removal in the middle and a sweep. -/
def someOps : List (Op (Fin 4)) :=
  [.insert (some 2) ⟨10, 1, 9, 1⟩, .insert (some 0) ⟨10, 1, 9, 1⟩, .insert none ⟨7, 1, 9, 1⟩,
    .insert (some 1) ⟨9, 1, 10, 1⟩, .clear 2, .sweep (hashOf ⟨10, 1, 9, 1⟩)]

theorem table_refines_store_someOps :
    (0 < 2 ∧ Store.AllowsRun 2 [] someOps) ∧
      ∃ t, (initializeSessiontable (Fin 4)).run 2 someOps = .ok t ∧
        Refines t (Store.run 2 [] someOps) ∧
        (∀ e ∈ Store.run 2 [] someOps, e.2.queue < 2) ∧
        ∀ k, getsession t k = .ok ((Store.run 2 [] someOps).lookup k) ∧
          (getsession t k = .ok none ↔ ∀ e ∈ Store.run 2 [] someOps, e.2.key ≠ k) := by
  have hops : Store.AllowsRun 2 [] someOps := by
    simp only [someOps, Store.AllowsRun, Store.Allows]
    decide
  exact ⟨⟨by decide, hops⟩, table_refines_store (by decide) (by decide) someOps hops⟩

end Opennop
