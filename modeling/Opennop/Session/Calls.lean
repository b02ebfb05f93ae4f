import Opennop.Session.Table

/-!
# Threads that call the session table

`fetcher_callback` and `worker_thread` look a session up, may insert one, and then read, change or
remove the record they hold a pointer to. Between two such calls the other threads run. A `Prog` is
what a thread still has to do, as a tree of its calls: `Prog.exec` runs it without interruption,
`Calls` is one call of it.

Both functions keep to one discipline, `About k`: first the lookup for `k`, then an insertion for
`k` if there was no session, then calls on the session that was found or inserted. `Prog.on` is the
meaning of such a program for the one connection it is about.
-/

namespace Opennop

/-- What a thread still does with the session table. -/
inductive Prog (A α : Type) where
  | done (x : α)
  | fault (e : Fault)
  | getsession (k : Key) (next : Option A → Prog A α)
  | insertsession (k : Key) (next : Option A → Prog A α)
  | read (a : A) (next : Session → Prog A α)
  | modify (a : A) (f : Session → Session) (next : Prog A α)
  | clearsession (a : A) (next : Prog A α)

namespace Prog

variable {A α β : Type}

def bind : Prog A α → (α → Prog A β) → Prog A β
  | done x, f => f x
  | fault e, _ => fault e
  | getsession k next, f => getsession k fun r => (next r).bind f
  | insertsession k next, f => insertsession k fun r => (next r).bind f
  | read a next, f => read a fun s => (next s).bind f
  | modify a g next, f => modify a g (next.bind f)
  | clearsession a next, f => clearsession a (next.bind f)

instance : Monad (Prog A) where
  pure := done
  bind := bind

def ofExec : Exec α → Prog A α
  | .ok x => done x
  | .error e => fault e

instance : MonadLift (Except Fault) (Prog A) := ⟨ofExec⟩

section Bind

variable (f : α → Prog A β)

@[simp] theorem done_bind (x : α) : (done x : Prog A α) >>= f = f x := rfl

@[simp] theorem fault_bind (e : Fault) : (fault e : Prog A α) >>= f = fault e := rfl

@[simp] theorem getsession_bind (k : Key) (next : Option A → Prog A α) :
    getsession k next >>= f = getsession k fun r => next r >>= f := rfl

@[simp] theorem insertsession_bind (k : Key) (next : Option A → Prog A α) :
    insertsession k next >>= f = insertsession k fun r => next r >>= f := rfl

@[simp] theorem read_bind (a : A) (next : Session → Prog A α) :
    read a next >>= f = read a fun s => next s >>= f := rfl

@[simp] theorem modify_bind (a : A) (g : Session → Session) (next : Prog A α) :
    modify a g next >>= f = modify a g (next >>= f) := rfl

@[simp] theorem clearsession_bind (a : A) (next : Prog A α) :
    clearsession a next >>= f = clearsession a (next >>= f) := rfl

@[simp] theorem pure_eq_done (x : α) : (pure x : Prog A α) = done x := rfl

theorem bind_assoc {γ : Type} (c : Prog A α) (g : β → Prog A γ) :
    c >>= f >>= g = c >>= fun x => f x >>= g := by
  induction c with
  | done x => rfl
  | fault e => rfl
  | getsession k next ih => exact congrArg (getsession k) (funext ih)
  | insertsession k next ih => exact congrArg (insertsession k) (funext ih)
  | read a next ih => exact congrArg (read a) (funext ih)
  | modify a f next ih => exact congrArg (modify a f) ih
  | clearsession a next ih => exact congrArg (clearsession a) ih

theorem lift_ok (x : α) : (liftM (Except.ok x : Except Fault α) : Prog A α) = done x := rfl

end Bind

/-! ## Single calls -/

/-- `getsession` -/
def lookup (k : Key) : Prog A (Option A) := getsession k done

/-- `insertsession` -/
def insert (k : Key) : Prog A (Option A) := insertsession k done

def load (a : A) : Prog A Session := read a done

def update (a : A) (f : Session → Session) : Prog A Unit := modify a f (done ())

/-- `clearsession` -/
def clear (a : A) : Prog A Unit := clearsession a (done ())

/-! ## Running -/

section Exec

variable [DecidableEq A] [Fintype A] (workers : Nat)

/-- The whole program without interruption; `calloc` is the result of its allocation. -/
def exec (calloc : Option A) : Prog A α → Table A → Exec (Table A × α)
  | done x, t => .ok (t, x)
  | fault e, _ => .error e
  | getsession k next, t => do
    let r ← Opennop.getsession t k
    (next r).exec calloc t
  | insertsession k next, t => do
    let (t, r) ← Opennop.insertsession workers t calloc k
    (next r).exec calloc t
  | read a next, t => do
    let n ← t.load a
    (next n.session).exec calloc t
  | modify a f next, t => do
    let t ← t.modify a f
    next.exec calloc t
  | clearsession a next, t => do
    let t ← Opennop.clearsession t a
    next.exec calloc t

/-- One call of a program. The allocator returns a block that is not in use. -/
inductive Calls : Table A → Prog A α → Table A → Prog A α → Prop
  | getsession {t : Table A} {k : Key} {next : Option A → Prog A α} {r : Option A} :
    Opennop.getsession t k = .ok r → Calls t (.getsession k next) t (next r)
  | insertsession {t t' : Table A} {k : Key} {next : Option A → Prog A α} {calloc r : Option A} :
    (∀ a, calloc = some a → t.heap a = none) →
    Opennop.insertsession workers t calloc k = .ok (t', r) →
    Calls t (.insertsession k next) t' (next r)
  | read {t : Table A} {a : A} {next : Session → Prog A α} {n : Node A} :
    t.load a = .ok n → Calls t (.read a next) t (next n.session)
  | modify {t t' : Table A} {a : A} {f : Session → Session} {next : Prog A α} :
    t.modify a f = .ok t' → Calls t (.modify a f next) t' next
  | clearsession {t t' : Table A} {a : A} {next : Prog A α} :
    Opennop.clearsession t a = .ok t' → Calls t (.clearsession a next) t' next

end Exec

/-! ## The discipline -/

/-- A change of a record that leaves its connection and its worker. -/
def Keeps (f : Session → Session) : Prop := ∀ s, (f s).key = s.key ∧ (f s).queue = s.queue

/-- Only calls on the session the thread holds a pointer to. If it `clears` the session, that is the
last call. -/
inductive Holding (clears : Prop) (o : Option A) : Prog A α → Prop
  | done (x : α) : Holding clears o (.done x)
  | fault (e : Fault) : Holding clears o (.fault e)
  | read {a : A} {next : Session → Prog A α} (ha : o = some a)
    (h : ∀ s, Holding clears o (next s)) : Holding clears o (.read a next)
  | modify {a : A} {f : Session → Session} {next : Prog A α} (ha : o = some a) (hf : Keeps f)
    (h : Holding clears o next) : Holding clears o (.modify a f next)
  | clearsession {a : A} (hc : clears) (ha : o = some a) (x : α) :
    Holding clears o (.clearsession a (.done x))

/-- After a lookup for `k` that found nothing. -/
inductive Missing (k : Key) : Prog A α → Prop
  | insertsession {next : Option A → Prog A α} (h : ∀ r, (next r).Holding True r) :
    Missing k (.insertsession k next)
  | holding {c : Prog A α} (h : c.Holding True none) : Missing k c

/-- At most one lookup, one insertion, and calls on the session at hand. -/
inductive About (k : Key) : Prog A α → Prop
  | getsession {next : Option A → Prog A α} (hsome : ∀ a, (next (some a)).Holding True (some a))
    (hnone : (next none).Missing k) : About k (.getsession k next)
  | holding {c : Prog A α} (h : c.Holding True none) : About k c

theorem Holding.bind {C : Prop} {o : Option A} {c : Prog A α} {f : α → Prog A β}
    (hc : c.Holding False o) (hf : ∀ x, (f x).Holding C o) : (c >>= f).Holding C o := by
  induction hc with
  | done x => exact hf x
  | fault e => exact .fault e
  | read ha h ih => exact .read ha ih
  | modify ha hg h ih => exact .modify ha hg ih
  | clearsession hc ha x => exact hc.elim

theorem Holding.ofExec {C : Prop} (o : Option A) (x : Exec α) :
    (ofExec x : Prog A α).Holding C o := by
  cases x with
  | ok x => exact .done x
  | error e => exact .fault e

/-! ## The meaning for one connection -/

/-- Calls on the session at hand, as a change of its record; `none` when it is not in the table. -/
def onRecord : Prog A α → Option Session → Exec (Option Session × α)
  | done x, s => .ok (s, x)
  | fault e, _ => .error e
  | getsession _ _, _ => .error .segv
  | insertsession _ _, _ => .error .segv
  | read _ next, some s => (next s).onRecord (some s)
  | modify _ f next, some s => next.onRecord (some (f s))
  | clearsession _ next, some _ => next.onRecord none
  | read _ _, none => .error .segv
  | modify _ _ _, none => .error .segv
  | clearsession _ _, none => .error .segv

/-- After a lookup that found nothing; `new` is what an insertion would make. -/
def onMissing (new : Option (A × Session)) : Prog A α → Exec (Option Session × α)
  | insertsession _ next => (next (new.map Prod.fst)).onRecord (new.map Prod.snd)
  | c => c.onRecord none

/-- The program for one connection: `entry` is its session with the address, `new` what an insertion
would make, the record that is left is in the result. -/
def on (new entry : Option (A × Session)) : Prog A α → Exec (Option Session × α)
  | getsession _ next =>
    match entry with
    | some (a, s) => (next (some a)).onRecord (some s)
    | none => (next none).onMissing new
  | c => c.onRecord (entry.map Prod.snd)

theorem Holding.on_eq {new entry : Option (A × Session)} {c : Prog A α} (hc : c.Holding True none) :
    c.on new entry = c.onRecord (entry.map Prod.snd) := by
  cases hc <;> rfl

theorem Holding.onMissing_eq {new : Option (A × Session)} {c : Prog A α}
    (hc : c.Holding True none) : c.onMissing new = c.onRecord none := by
  cases hc <;> rfl

theorem onRecord_bind (c : Prog A α) (f : α → Prog A β) (st : Option Session) :
    (c >>= f).onRecord st = (do
      let r ← c.onRecord st
      (f r.2).onRecord r.1) := by
  induction c generalizing st with
  | done x => rfl
  | fault e => rfl
  | getsession k next ih => rfl
  | insertsession k next ih => rfl
  | read a next ih =>
    cases st with
    | none => rfl
    | some s => exact ih s (some s)
  | modify a g next ih =>
    cases st with
    | none => rfl
    | some s => exact ih (some (g s))
  | clearsession a next ih =>
    cases st with
    | none => rfl
    | some s => exact ih none

section OnRecord

variable (s : Session) (st : Option Session) (a : A)

@[simp] theorem onRecord_done (x : α) : (done x : Prog A α).onRecord st = .ok (st, x) := rfl

@[simp] theorem onRecord_fault (e : Fault) : (fault e : Prog A α).onRecord st = .error e := rfl

@[simp] theorem onRecord_update (g : Session → Session) :
    (update a g).onRecord (some s) = .ok (some (g s), ()) := rfl

@[simp] theorem onRecord_load : (load a).onRecord (some s) = .ok (some s, s) := rfl

@[simp] theorem onRecord_clear : (clear a).onRecord (some s) = .ok (none, ()) := rfl

theorem onRecord_update_bind (g : Session → Session) (f : Unit → Prog A α) :
    (update a g >>= f).onRecord (some s) = (f ()).onRecord (some (g s)) := rfl

theorem onRecord_load_bind (f : Session → Prog A α) :
    (load a >>= f).onRecord (some s) = (f s).onRecord (some s) := rfl

theorem onRecord_lift_error (e : Fault) (f : β → Prog A α) :
    ((liftM (Except.error e : Except Fault β) : Prog A β) >>= f).onRecord st = .error e := rfl

theorem on_lookup_some (new : Option (A × Session)) (e : A × Session) (k : Key)
    (f : Option A → Prog A α) :
    (lookup k >>= f).on new (some e) = (f (some e.1)).onRecord (some e.2) := rfl

theorem on_lookup_none (new : Option (A × Session)) (k : Key) (f : Option A → Prog A α) :
    (lookup k >>= f).on new none = (f none).onMissing new := rfl

theorem onMissing_insert (new : Option (A × Session)) (k : Key) (f : Option A → Prog A α) :
    (insert k >>= f).onMissing new =
      (f (new.map Prod.fst)).onRecord (new.map Prod.snd) := rfl

@[simp] theorem onMissing_done (new : Option (A × Session)) (x : α) :
    (done x : Prog A α).onMissing new = .ok (none, x) := rfl

@[simp] theorem onRecord_lift (x : Except Fault α) : (liftM x : Prog A α).onRecord st = (do
    let v ← x
    return (st, v)) := by
  cases x <;> rfl

end OnRecord

end Prog

end Opennop
