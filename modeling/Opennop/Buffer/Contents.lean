import Opennop.Buffer.Tasks

/-!
# One packet in two models

`fetcherCallback` and `workerThread` work on one packet that nobody else touches, `fetcherTask` and
`workerTask` share buffers, queues and the pool of free buffers with all other threads. `Alone` says
that a processor whose packet nobody else touches does the same in both models.

`Stage` is what a thread knows of its packet, and `contents` is a protocol over it: the verdict on a
packet is one that the first model gives for the bytes with which the packet was delivered, and what
goes into a queue is what the first model hands over.
-/

namespace Opennop

namespace Prog

variable {A α β : Type}

/-- Some answers of the session table lead to the result. -/
inductive Returns : Prog A α → α → Prop
  | done {x : α} : Returns (.done x) x
  | getsession {k : Key} {next : Option A → Prog A α} {x : α} (r : Option A)
    (h : Returns (next r) x) :
    Returns (.getsession k next) x
  | insertsession {k : Key} {next : Option A → Prog A α} {x : α} (r : Option A)
    (h : Returns (next r) x) :
    Returns (.insertsession k next) x
  | read {a : A} {next : Session → Prog A α} {x : α} (s : Session) (h : Returns (next s) x) :
    Returns (.read a next) x
  | modify {a : A} {g : Session → Session} {next : Prog A α} {x : α} (h : Returns next x) :
    Returns (.modify a g next) x
  | clearsession {a : A} {next : Prog A α} {x : α} (h : Returns next x) :
    Returns (.clearsession a next) x

namespace Returns

variable {c : Prog A α} {f : α → Prog A β} {x : α} {y : β}

/-- **The rule for sequences.** -/
theorem bind (h : c.Returns x) (hf : (f x).Returns y) : (c >>= f).Returns y := by
  induction h with
  | done => exact hf
  | getsession r _ ih => exact .getsession r (ih hf)
  | insertsession r _ ih => exact .insertsession r (ih hf)
  | read s _ ih => exact .read s (ih hf)
  | modify _ ih => exact .modify (ih hf)
  | clearsession _ ih => exact .clearsession (ih hf)

theorem lift {e : Exec α} (h : e = .ok x) (hf : (f x).Returns y) :
    ((liftM e : Prog A α) >>= f).Returns y := by
  subst h
  exact hf

end Returns

end Prog

theorem endSession_returns {A : Type} (a : A) (p : Mem) : (endSession a p).Returns () := by
  unfold endSession
  split
  · exact .clearsession .done
  · split
    · exact .read
        { larger := { address := 0, port := 0 }
          smaller := { address := 0, port := 0 }
          queue := 0 } .done
    · exact .done

/-! ## What a thread knows of its packet -/

/-- What a thread knows of its packet. -/
inductive Stage (B : Type) where
  /-- It has no packet, or is done with it. -/
  | quiet
  /-- The fetcher has the packet `p` of `ret` bytes with the number `i`. -/
  | fetching (env : Env) (i ret : Nat) (p : Mem)
  /-- It has a buffer that is zero. -/
  | wiped (env : Env) (i ret : Nat) (p : Mem) (b : B)
  /-- The bytes `d` are in the buffer. -/
  | saved (env : Env) (i ret : Nat) (p : Mem) (b : B) (d : Mem)
  /-- The processor of `q` waits for a packet. -/
  | waiting (env : Env) (q : Lane)
  | has (env : Env) (q : Lane) (b : B)
  /-- It has found the packet `i` with the bytes `d` in its buffer. -/
  | working (env : Env) (q : Lane) (i : Nat) (d : Mem)

/-- What the fetcher gives for a packet that it hands over to the queue `q` with the bytes `d`. -/
def handed (q : Lane) (d : Mem) : Verdict :=
  if q.deoptimization then .deoptimize q.worker d else .optimize q.worker d

def Act.Passes {A B : Type} : Act A B → Prop
  | .setVerdict _ _ => True
  | .queuePacket (.lane _) _ => True
  | _ => False

/-- What an action with its result tells a thread. Verdicts are those that the functions give for
the packet alone, and what goes into a queue is what the fetcher gives for it. -/
inductive Tells {A B : Type} : Stage B → (e : Act A B) → e.Result → Stage B → Prop
  | call {φ : Stage B} {c : Call A} {r : c.Result} : Tells φ (.call c) r φ
  -- the fetcher
  | level {env : Env} {i ret n : Nat} {p : Mem} :
    Tells (.fetching env i ret p) (.qlen .pool) n (.fetching env i ret p)
  | take {env : Env} {i ret : Nat} {p : Mem} {o : Option B} :
    Tells (.fetching env i ret p) (.dequeuePacket .pool) o (.fetching env i ret p)
  | allocate {env : Env} {i ret : Nat} {p : Mem} {b : B} :
    Tells (.fetching env i ret p) .newpacket b (.fetching env i ret p)
  | account {env : Env} {i ret k : Nat} {p : Mem} :
    Tells (.fetching env i ret p) (.account k) () (.fetching env i ret p)
  | wipe {env : Env} {i ret : Nat} {p : Mem} {b : B} :
    Tells (.fetching env i ret p) (.wipe b) () (.wiped env i ret p b)
  | save {env : Env} {i ret ret' : Nat} {p p' : Mem} {b : B} :
    Tells (.wiped env i ret p b) (.savePacket b i ret' p') () (.saved env i ret p b (p'.cut ret'))
  | confirmed {env : Env} {i ret : Nat} {p d : Mem} {b : B} {id : OpennopId} :
    Tells (.saved env i ret p b d) (.verify id) true (.saved env i ret p b d)
  | forgotten {env : Env} {i ret : Nat} {p d : Mem} {b : B} {id : OpennopId} :
    Tells (.saved env i ret p b d) (.verify id) false .quiet
  | handOver {env : Env} {i ret : Nat} {p d : Mem} {b : B} {q : Lane}
    (h : (fetcherCallback env i ret true p : Prog A Verdict).Returns (handed q d)) :
    Tells (.saved env i ret p b d) (.queuePacket (.lane q) b) () .quiet
  | answer {env : Env} {i ret : Nat} {p : Mem} {v : Verdict}
    (h : (fetcherCallback env i ret true p : Prog A Verdict).Returns v) :
    Tells (.fetching env i ret p) (.setVerdict i v) () .quiet
  -- a processor
  | nothing {env : Env} {q : Lane} :
    Tells (.waiting env q) (.dequeuePacket (.lane q)) none (.waiting env q)
  | dequeue {env : Env} {q : Lane} {b : B} :
    Tells (.waiting env q) (.dequeuePacket (.lane q)) (some b) (.has env q b)
  | load {env : Env} {q : Lane} {b : B} {i : Nat} {d : Mem} :
    Tells (.has env q b) (.load b) (i, d) (.working env q i d)
  | store {env : Env} {q : Lane} {b : B} {i : Nat} {d p : Mem} :
    Tells (.working env q i d) (.store b p) () (.working env q i d)
  | verdict {env : Env} {q : Lane} {i : Nat} {d : Mem} {v : Verdict}
    (h : ∀ reread, (workerThread env reread d : Prog A Verdict).Returns v) :
    Tells (.working env q i d) (.setVerdict i v) () .quiet
  -- a thread without a packet
  | other {e : Act A B} {r : e.Result} (h : ¬ e.Passes) : Tells .quiet e r .quiet

def contents {A B : Type} :
    Protocol (Act.Result (A := A) (B := B)) (Stage B) := ⟨fun _ _ => True, Tells⟩

/-! ## The verdicts on a packet alone -/

section Alone

variable {A : Type} {env : Env} {i : Nat} {p d : Mem} {remote : Option OpennopId}

open Prog

/-- What `fetcher_callback` does behind the lookup of a session. -/
theorem fetcherCallback_lookup (ret : Nat) (buffer : Bool)
    (hrun : env.running) (htcp : p.protocol = ipprotoTcp ∧ i ≠ 0) (hsyn : ¬ (p.syn ∧ ¬ p.ack))
    (hremote : remoteID env p = .ok remote) :
    ∃ f : Option A → Prog A Verdict, fetcherCallback env i ret buffer p = Prog.lookup p.key >>= f ∧
      (∀ a, f (some a) =
        if p.syn ∧ p.ack then fetchSynAck env remote a p else fetchData env remote ret buffer a p) ∧
      (∀ r, remote = some r → f none =
        if ¬ p.syn ∧ p.ack ∧ ¬ p.fin then fetchRecover env r ret buffer p else .done (.accept p)) ∧
      (remote = none → f none = .done (.accept p)) := by
  rw [fetcherCallback, if_pos hrun, if_pos htcp, hremote, lift_ok, Prog.done_bind, if_neg hsyn]
  refine ⟨_, rfl, ?_, ?_, ?_⟩
  · intro a
    rfl
  · rintro r rfl
    rfl
  · rintro rfl
    rfl

/-- The verdict of `worker_thread` without a session. -/
theorem workerThread_missing (hremote : remoteID env d = .ok remote) (reread : Mem) :
    (workerThread env reread d : Prog A Verdict).Returns .acceptOriginal :=
  .lift hremote (.getsession none .done)

/-- The verdict of `worker_thread` on a packet of a session, whatever flags it reads after a failed
decompression. -/
theorem workerThread_found (hremote : remoteID env d = .ok remote) {a : A} {x : Mem × Bool}
    (hx : (processPacket env remote a d).Returns x) (reread : Mem) :
    (workerThread env reread d : Prog A Verdict).Returns
      (if x.2 then .accept (checksum x.1) else .drop) := by
  refine .lift hremote (.getsession (some a) (hx.bind ((endSession_returns a _).bind ?_)))
  split
  · exact .done
  · exact .done

end Alone

namespace Job

variable {A B α : Type}

/-! ### A processor alone -/

/-- What a processor alone finds: it takes the packet `i` with the bytes `p` from its queue in the
buffer `b`, and sees the flags of `reread` when it has returned the buffer. -/
def finds (b : B) (i : Nat) (p reread : Mem) : (e : Act A B) → Option e.Result
  | .dequeuePacket (.lane _) => some (some b)
  | .load _ => some (i, p)
  | .readFlags _ => some reread
  | .store _ _ => some ()
  | .queuePacket .pool _ => some ()
  | _ => none

/-- The calls of a processor alone, with the verdict it has come to in the end. -/
inductive Alone (b : B) (i : Nat) (p reread : Mem) :
    Option Verdict → Job A B Unit → Prog A (Option Verdict) → Prop
  | done {v : Option Verdict} {u : Unit} : Alone b i p reread v (.done u) (.done v)
  | fault {v : Option Verdict} {e : Fault} {next : Empty → Job A B Unit} :
    Alone b i p reread v (.act (.fault e) next) (.fault e)
  | getsession {v : Option Verdict} {k : Key} {next : Option A → Job A B Unit}
    {c : Option A → Prog A (Option Verdict)} (h : ∀ r, Alone b i p reread v (next r) (c r)) :
    Alone b i p reread v (.act (.call (.getsession k)) next) (.getsession k c)
  | insertsession {v : Option Verdict} {k : Key} {next : Option A → Job A B Unit}
    {c : Option A → Prog A (Option Verdict)} (h : ∀ r, Alone b i p reread v (next r) (c r)) :
    Alone b i p reread v (.act (.call (.insertsession k)) next) (.insertsession k c)
  | read {v : Option Verdict} {a : A} {next : Session → Job A B Unit}
    {c : Session → Prog A (Option Verdict)} (h : ∀ s, Alone b i p reread v (next s) (c s)) :
    Alone b i p reread v (.act (.call (.read a)) next) (.read a c)
  | modify {v : Option Verdict} {a : A} {g : Session → Session} {next : Unit → Job A B Unit}
    {c : Prog A (Option Verdict)} (h : Alone b i p reread v (next ()) c) :
    Alone b i p reread v (.act (.call (.modify a g)) next) (.modify a g c)
  | clearsession {v : Option Verdict} {a : A} {next : Unit → Job A B Unit}
    {c : Prog A (Option Verdict)} (h : Alone b i p reread v (next ()) c) :
    Alone b i p reread v (.act (.call (.clearsession a)) next) (.clearsession a c)
  | finds {v : Option Verdict} {e : Act A B} {next : e.Result → Job A B Unit} {r : e.Result}
    {c : Prog A (Option Verdict)} (hr : Job.finds b i p reread e = some r)
    (h : Alone b i p reread v (next r) c) : Alone b i p reread v (.act e next) c
  | verdict {v : Verdict} {next : Unit → Job A B Unit} {c : Prog A (Option Verdict)}
    (h : Alone b i p reread (some v) (next ()) c) :
    Alone b i p reread none (.act (.setVerdict i v) next) c

namespace Alone

variable {b : B} {i : Nat} {p reread : Mem} {v : Option Verdict} {c : Prog A (Option Verdict)}

theorem act {e : Act A B} {f : e.Result → Job A B Unit} {r : e.Result}
    (hr : Job.finds b i p reread e = some r) (h : Alone b i p reread v (f r) c) :
    Alone b i p reread v (perform e >>= f) c :=
  .finds hr h

theorem setVerdict {v : Verdict} {f : Unit → Job A B Unit}
    (h : Alone b i p reread (some v) (f ()) c) :
    Alone b i p reread none (perform (.setVerdict i v) >>= f) c :=
  .verdict h

theorem put : Alone b i p reread v (putFreepacketBuffer b : Job A B Unit) (.done v) :=
  .finds (e := .queuePacket .pool b) rfl .done

theorem prog {c : Prog A α} {f : α → Job A B Unit} {g : α → Prog A (Option Verdict)}
    (h : ∀ x, Alone b i p reread v (f x) (g x)) :
    Alone b i p reread v (ofProg c >>= f) (c >>= g) := by
  induction c with
  | done x => exact h x
  | fault e => exact .fault
  | getsession k next ih => exact .getsession ih
  | insertsession k next ih => exact .insertsession ih
  | read a next ih => exact .read ih
  | modify a g next ih => exact .modify ih
  | clearsession a next ih => exact .clearsession ih

theorem exec {x : Exec α} {f : α → Job A B Unit} {g : α → Prog A (Option Verdict)}
    (h : ∀ y, Alone b i p reread v (f y) (g y)) :
    Alone b i p reread v (ofExec x >>= f) ((liftM x : Prog A α) >>= g) := by
  cases x with
  | ok y => exact h y
  | error e => exact .fault

theorem last (c : Prog A Unit) :
    Alone b i p reread v (ofProg c : Job A B Unit) (c >>= fun _ => .done v) := by
  induction c with
  | done x => exact .done
  | fault e => exact .fault
  | getsession k next ih => exact .getsession ih
  | insertsession k next ih => exact .insertsession ih
  | read a next ih => exact .read ih
  | modify a g next ih => exact .modify ih
  | clearsession a next ih => exact .clearsession ih

theorem processTask (env : Env) (remote : Option OpennopId) (a : A) :
    Alone b i p reread none (Opennop.processTask env remote b i a p : Job A B Unit)
      (processPacket env remote a p >>= fun x => endSession a (if x.2 then x.1 else reread) >>=
        fun _ => .done (some (if x.2 then .accept (checksum x.1) else .drop))) := by
  refine .prog fun x => .act rfl ?_
  obtain ⟨p', kept⟩ := x
  cases kept with
  | true => exact .prog fun _ => .act rfl (.setVerdict .put)
  | false => exact .setVerdict (.act (e := .queuePacket .pool b) rfl (.act rfl (.last _)))

/-- **The two models of `worker_thread` make the same calls** and come to the same verdict. They
differ in its place: after a failed decompression `processTask` issues it and returns the buffer
before the flags are read. -/
theorem workerTask (env : Env) (q : Lane) :
    Alone b i p reread none (Opennop.workerTask env q : Job A B Unit)
      (workerThread env reread p >>= fun v => .done (some v)) := by
  unfold workerThread
  rw [Prog.bind_assoc]
  refine .act rfl (.act rfl (.exec fun remote => ?_))
  rw [Prog.bind_assoc]
  refine .prog fun o => ?_
  cases o with
  | none => exact .setVerdict .put
  | some a =>
    refine cast (congrArg _ ?_) (Alone.processTask env remote a)
    dsimp only
    rw [Prog.bind_assoc]
    refine congrArg _ (funext fun x => ?_)
    rw [Prog.bind_assoc]
    refine congrArg _ (funext fun _ => ?_)
    cases x.2 <;> rfl

end Alone

end Job

end Opennop
