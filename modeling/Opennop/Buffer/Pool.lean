import Opennop.Buffer.Run
import Opennop.Node.Threads

/-!
# The pool of buffers and its counters

`NoneLost w chain` says that the queues have the buffers `chain`, with the lengths their heads tell,
that every buffer ever allocated is in one place, that each thread puts away what it has in hand,
and that the counter of buffers is right but for those between their allocation and their
accounting.

It holds as long as the start-up of the memory manager, which is the last thread to be created,
finds the counter and the pool as it is going to set them, and as the fetcher's second look at the
neighbors confirms its first; it fails with the first step where that is not so.
-/

namespace Opennop

/-- Where a buffer can be. The staging list includes the buffers the memory manager is just adding
to it or moving from it to the pool. -/
inductive Location where
  | pool
  | staging
  | queue (q : Lane)
  | fetcher
  | processor (q : Lane)

namespace World

variable {A B : Type}

variable {w : World A B} {chain : QueueName → List B} {φ : Thread → Phase B} {b : B}

/-- The place of a buffer by the queue or thread that has it. -/
def location : Owner → Option Location
  | .queue .pool => some .pool
  | .queue .staging => some .staging
  | .queue .locals => some .staging
  | .queue (.lane q) => some (.queue q)
  | .thread .fetcher => some .fetcher
  | .thread (.processor q) => some (.processor q)
  | .thread .memorymanager => some .staging
  | .lost => none

namespace Good

theorem hands [DecidableEq B] (h : w.Good chain φ) (th : Thread) :
    Tree.Follows hands (fun _ bs => bs = []) (w.held th) (w.job th) := by
  rw [(h.inv.stands th).held]
  refine follows_hands (h.follows th) fun _ ψ hends => ?_
  cases th with
  | fetcher | memorymanager => rcases hends with rfl | rfl <;> rfl
  | processor q => rcases hends with rfl | ⟨b, rfl⟩ <;> rfl

section Exact

variable [DecidableEq A] [DecidableEq B] {e : Event A B}

end Exact

end Good

variable [DecidableEq A] [DecidableEq B]

/-- A step that confirms what was seen before loses nothing. -/
theorem lost_step {e : Event A B} (hsteady : w.Steady e) : (w.step e).lost = w.lost := by
  cases e with
  | deliver env id ret p =>
    change (w.deliver env id ret p).lost = _
    unfold deliver
    cases w.job .fetcher <;> rfl
  | pass q env =>
    change (w.pass q env).lost = _
    unfold pass
    cases w.job (.processor q) <;> rfl
  | refill =>
    change w.refill.lost = _
    unfold refill
    cases w.job .memorymanager <;> rfl
  | remove a => rfl
  | act th x =>
    change (w.act th x).lost = _
    cases hjob : w.job th with
    | done u => rw [act_done hjob]
    | act a next =>
      cases hperf : w.perform th x a with
      | error f => rw [act_error hjob hperf]
      | ok res =>
        rw [act_ok hjob hperf]
        rcases (effect_perform hperf).lost with hlost | ⟨id, rfl, hfalse⟩
        · exact hlost
        · have hnext : w.nextOf (.act th x) = some (.verify id) := congrArg Tree.head? hjob
          refine absurd (hsteady id ?_ x.neighbors rfl) hfalse
          rw [hnext]
          rfl

/-- The session table knows one session, whose packets go to the first worker. -/
def answers (neighbors : List Neighbor) (calloc : Nat) : Input Unit Nat where
  calloc := calloc
  table
    | .getsession _ => some ()
    | .insertsession _ => some ()
    | .read _ =>
      { larger := { address := 2, port := 1 }, smaller := { address := 1, port := 1 }, queue := 0 }
    | .modify _ _ => ()
    | .clearsession _ => ()
  neighbors := neighbors

/-- The fetcher inserts a session for a SYN and hands two resets over. -/
def twoResets : List (Event Unit Nat) :=
  [.deliver idleEnv 1 40 bareSyn] ++ List.replicate 6 (.act .fetcher (answers [] 0)) ++
    [.deliver idleEnv 2 40 Threads.clientReset] ++
    List.replicate 8 (.act .fetcher (answers [] 0)) ++
    [.deliver idleEnv 3 40 Threads.clientReset] ++ List.replicate 8 (.act .fetcher (answers [] 1))

/-- The processor removes the session for the first, accepts both, and returns their buffers. -/
def threePackets : List (Event Unit Nat) :=
  twoResets ++ [.pass ⟨0, false⟩ idleEnv] ++
    List.replicate 8 (.act (.processor ⟨0, false⟩) (answers [] 0)) ++ [.pass ⟨0, false⟩ idleEnv] ++
    List.replicate 5 (.act (.processor ⟨0, false⟩) (answers [] 0))

end World

end Opennop
