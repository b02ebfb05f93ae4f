import Opennop.Node.Discipline
import Opennop.Session.Runs

/-!
# Pointers to sessions

`fetcher_callback` and `worker_thread` work on the session they hold a pointer to, and neither uses
a pointer again after it has removed the session: `Proper`. The program of a thread is taken here
call by call, with what the next call is on. `Proper.next` is what one call does when the pointer is
in order.
-/

namespace Opennop

namespace Prog

variable {A α : Type}

/-! ## Programs call by call -/

def target : Prog A α → Option A
  | read a _ => some a
  | modify a _ _ => some a
  | clearsession a _ => some a
  | _ => none

def unlinks : Prog A α → Option A
  | clearsession a _ => some a
  | _ => none

theorem unlinks_target {c : Prog A α} {a : A} (h : c.unlinks = some a) : c.target = some a := by
  cases c with
  | clearsession b next => exact h
  | _ => cases h

def allocates (calloc : Option A) : Prog A α → Option A
  | insertsession _ _ => calloc
  | _ => none

/-- The next call; `calloc` is the result of an allocation in it. -/
def next [DecidableEq A] [Fintype A] (workers : Nat) (calloc : Option A) :
    Prog A α → Table A → Exec (Table A × Prog A α)
  | done x, t => .ok (t, done x)
  | fault e, _ => .error e
  | getsession k next, t => do
    let r ← Opennop.getsession t k
    return (t, next r)
  | insertsession k next, t => do
    let (t, r) ← Opennop.insertsession workers t calloc k
    return (t, next r)
  | read a next, t => do
    let n ← t.load a
    return (t, next n.session)
  | modify a f next, t => do
    let t ← t.modify a f
    return (t, next)
  | clearsession a next, t => do
    let t ← Opennop.clearsession t a
    return (t, next)

theorem exec_eq_next [DecidableEq A] [Fintype A] (workers : Nat) (calloc : Option A) (c : Prog A α)
    (t : Table A) : c.exec workers calloc t = (do
      let r ← c.next workers calloc t
      r.2.exec workers calloc r.1) := by
  cases c with
  | done x => rfl
  | fault e => rfl
  | getsession k next =>
    simp only [exec, Prog.next]
    cases Opennop.getsession t k <;> rfl
  | insertsession k next =>
    simp only [exec, Prog.next]
    cases Opennop.insertsession workers t calloc k <;> rfl
  | read a next =>
    simp only [exec, Prog.next]
    cases t.load a <;> rfl
  | modify a f next =>
    simp only [exec, Prog.next]
    cases t.modify a f <;> rfl
  | clearsession a next =>
    simp only [exec, Prog.next]
    cases Opennop.clearsession t a <;> rfl

end Prog

/-! ## Pointers in use -/

def Table.Live {A : Type} (t : Table A) (a : A) : Prop := ∃ n, t.heap a = some n

namespace Prog

variable {A α : Type} {o : Option A} {c : Prog A α}

/-- Only calls on the session the thread has a pointer to, and none on a session it has removed. -/
inductive Proper : Option A → Prog A α → Prop
  | done {o : Option A} (x : α) : Proper o (.done x)
  | fault {o : Option A} (e : Fault) : Proper o (.fault e)
  | getsession {o : Option A} {k : Key} {next : Option A → Prog A α} (h : ∀ r, Proper r (next r)) :
    Proper o (.getsession k next)
  | insertsession {o : Option A} {k : Key} {next : Option A → Prog A α}
    (h : ∀ r, Proper r (next r)) : Proper o (.insertsession k next)
  | read {a : A} {next : Session → Prog A α} (h : ∀ s, Proper (some a) (next s)) :
    Proper (some a) (.read a next)
  | modify {a : A} {f : Session → Session} {next : Prog A α} (hf : Keeps f)
    (h : Proper (some a) next) : Proper (some a) (.modify a f next)
  | clearsession {a : A} {next : Prog A α} (h : Proper none next) :
    Proper (some a) (.clearsession a next)

theorem Holding.proper (hc : c.Holding True o) : c.Proper o := by
  induction hc with
  | done x => exact .done x
  | fault e => exact .fault e
  | read ha h ih => exact ha ▸ .read fun s => ha ▸ ih s
  | modify ha hg h ih => exact ha ▸ .modify hg (ha ▸ ih)
  | clearsession _ ha x => exact ha ▸ .clearsession (.done x)

/-- **The discipline of both functions.** -/
theorem About.proper {k : Key} (hc : c.About k) : c.Proper none := by
  cases hc with
  | holding h => exact h.proper
  | @getsession next hsome hnone =>
    refine .getsession fun r => ?_
    cases r with
    | some a => exact (hsome a).proper
    | none =>
      generalize next none = c at hnone
      cases hnone with
      | holding h => exact h.proper
      | insertsession h => exact .insertsession fun r => (h r).proper

theorem Proper.target_eq (hc : c.Proper o) {a : A} (ha : c.target = some a) : o = some a := by
  cases hc with
  | done x => cases ha
  | fault e => cases ha
  | getsession h => cases ha
  | insertsession h => cases ha
  | read h => exact ha
  | modify hf h => exact ha
  | clearsession h => exact ha

end Prog

section Calls

open Prog

variable {A α : Type} [DecidableEq A] {t : Table A} {σ : Store A}

theorem live_inserted {a x : A} {k : Key} {q : Nat} :
    (t.inserted a k q).Live x ↔ t.Live x ∨ x = a := by
  unfold Table.Live Table.inserted
  by_cases hx : x = a
  · simp [hx]
  · simp [hx]

theorem live_removed {a x : A} {n : Node A} : (t.removed a n).Live x ↔ t.Live x ∧ x ≠ a := by
  unfold Table.Live Table.removed
  by_cases hx : x = a
  · simp [hx]
  · simp [hx]

theorem live_store {a x : A} {n : Node A} (ha : t.Live a) : (t.store a n).Live x ↔ t.Live x := by
  unfold Table.Live Table.store
  by_cases hx : x = a
  · subst hx
    simp only [Function.update_self, Option.some.injEq, exists_eq', true_iff]
    exact ha
  · simp [hx]

variable [Fintype A] (hcard : Fintype.card A < 4294967296) (workers : Nat)
include hcard

/-- **One call of a thread** whose pointer is in order. It returns, its pointer is in order again,
and the sessions are those that were there, with the one it inserts and without the one it
removes. -/
theorem Prog.Proper.next {c : Prog A α} {o calloc : Option A} (hc : c.Proper o) (h : Refines t σ)
    (hlive : ∀ a, c.target = some a → t.Live a) (hfree : ∀ a, calloc = some a → t.heap a = none)
    (hfault : ∀ e, c ≠ .fault e) :
    ∃ t' σ' c' o', c.next workers calloc t = .ok (t', c') ∧ Refines t' σ' ∧ c'.Proper o' ∧
      (∀ a, c'.target = some a → t'.Live a) ∧
      ∀ x, t'.Live x ↔ (t.Live x ∨ c.allocates calloc = some x) ∧ c.unlinks ≠ some x := by
  cases hc with
  | done x =>
    exact ⟨t, σ, _, o, rfl, h, .done x, fun a ha => (nomatch ha), by simp [allocates, unlinks]⟩
  | fault e => exact absurd rfl (hfault e)
  | @getsession _ k next hnext =>
    refine ⟨t, σ, next (σ.lookup k), _, ?_, h, hnext _,
      fun a ha => ?_, by simp [allocates, unlinks]⟩
    · simp only [Prog.next, h.getsession k, ok_bind, pure_eq_ok]
    · have hlookup := (hnext _).target_eq ha
      obtain ⟨e, he, rfl⟩ := Option.map_eq_some_iff.1 hlookup
      exact h.mem_iff.1 (List.mem_map_of_mem (List.mem_of_find?_eq_some he))
  | @insertsession _ k next hnext =>
    cases calloc with
    | none =>
      exact ⟨t, σ, next none, none, rfl, h, hnext none,
        fun a ha => (nomatch (hnext none).target_eq ha), by simp [allocates, unlinks]⟩
    | some a =>
      have ha := hfree a rfl
      refine ⟨_, _, next (some a), some a, ?_, h.inserted hcard ha k (pickQueue workers t.sessions),
        hnext _, fun b hb => ?_, fun x => ?_⟩
      · simp only [Prog.next, h.insertsession_eq ha, ok_bind, pure_eq_ok]
      · obtain rfl := Option.some.inj ((hnext _).target_eq hb)
        exact live_inserted.2 (.inr rfl)
      · rw [live_inserted]
        simp [allocates, unlinks, eq_comm]
  | @read a next hnext =>
    obtain ⟨n, hn⟩ := hlive a rfl
    refine ⟨t, σ, next n.session, some a, ?_, h, hnext _,
      fun b hb => ?_, by simp [allocates, unlinks]⟩
    · simp [Prog.next, Table.load, hn]
    · obtain rfl := Option.some.inj ((hnext _).target_eq hb)
      exact ⟨n, hn⟩
  | @modify a f next hf hnext =>
    obtain ⟨n, hn⟩ := hlive a rfl
    refine ⟨_, _, next, some a, ?_, h.modified hn (fun s => (hf s).1) fun s => (hf s).2, hnext,
      fun b hb => ?_, fun x => ?_⟩
    · simp [Prog.next, Table.modify, Table.load, hn]
    · obtain rfl := Option.some.inj (hnext.target_eq hb)
      exact (live_store ⟨n, hn⟩).2 ⟨n, hn⟩
    · rw [live_store ⟨n, hn⟩]
      simp [allocates, unlinks]
  | @clearsession a next hnext =>
    obtain ⟨n, hn⟩ := hlive a rfl
    refine ⟨_, _, next, none, ?_, h.removed hcard hn, hnext,
      fun b hb => (nomatch hnext.target_eq hb), fun x => ?_⟩
    · simp [Prog.next, h.clearsession_eq hn]
    · rw [live_removed]
      simp [allocates, unlinks, eq_comm]

end Calls

end Opennop
