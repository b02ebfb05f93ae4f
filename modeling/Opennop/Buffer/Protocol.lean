import Opennop.Buffer.Tasks

/-!
# How the threads use a buffer

`Phase` is where a thread is: which packet it has in hand, which buffer, and what it still owes.
`Goes` says which actions a phase allows and where they lead: every exit of `fetcher_callback`
issues the verdict or hands over the buffer, unless its second look at the neighbors contradicts the
first, and every way through the loop of `worker_thread` issues one verdict and returns the buffer.

`hands` is the same protocol with no more than the buffers in hand: only they are put into a queue,
and none is left in the end.
-/

namespace Opennop

/-- Where a thread is. -/
inductive Phase (B : Type) where
  /-- The fetcher waits for a packet. -/
  | rest
  /-- It has the packet `i`. -/
  | packet (i : Nat)
  /-- It has seen that the pool is not empty. -/
  | sure (i : Nat)
  /-- It has a new buffer, which is not counted yet. -/
  | fresh (i : Nat) (b : B)
  | buffer (i : Nat) (b : B)
  /-- The packet is in the buffer. -/
  | saved (i : Nat) (b : B)
  /-- The processor of `q` waits for a packet. -/
  | idle (q : Lane)
  | has (q : Lane) (b : B)
  /-- It has read which packet is in its buffer. -/
  | knows (q : Lane) (b : B) (i : Nat)
  /-- It has issued the verdict. -/
  | answered (q : Lane) (b : B)
  /-- It has returned the buffer. -/
  | returned (q : Lane) (b : B)
  /-- The memory manager has not set the counter of buffers. -/
  | bootAllocated
  | bootPool
  | bootStaging
  /-- It has put `k` new buffers into the staging queue. -/
  | staged (k : Nat)
  | staging (k : Nat) (b : B)
  /-- It is between the two sections of `move_queued_packets`. -/
  | moving (k : Nat)
  /-- The buffers are moved but not counted. -/
  | moved (k : Nat)
  /-- This does not happen. -/
  | never

def Phase.held {B : Type} : Phase B → List B
  | fresh _ b | buffer _ b | saved _ b | has _ b | knows _ b _ | answered _ b | staging _ b => [b]
  | _ => []

/-- The verdicts that are issued. -/
def Verdict.Issued : Verdict → Prop
  | .accept _ => True
  | .acceptOriginal => True
  | .drop => True
  | _ => False

/-- Where an action with its result leads. -/
inductive Goes {A B : Type} : Phase B → (e : Act A B) → e.Result → Phase B → Prop
  | call {φ : Phase B} {c : Call A} {r : c.Result} : Goes φ (.call c) r φ
  -- the fetcher
  | low {i : Nat} : Goes (.packet i) (.qlen .pool) 0 (.packet i)
  | filled {i n : Nat} (h : n > 0) : Goes (.packet i) (.qlen .pool) n (.sure i)
  | take {i : Nat} {b : B} : Goes (.sure i) (.dequeuePacket .pool) (some b) (.buffer i b)
  | missing {i : Nat} : Goes (.sure i) (.dequeuePacket .pool) none .never
  | allocate {i : Nat} {b : B} (h : i ≠ 0) : Goes (.packet i) .newpacket b (.fresh i b)
  | account {i : Nat} {b : B} : Goes (.fresh i b) (.account 1) () (.buffer i b)
  | wipe {i : Nat} {b : B} : Goes (.buffer i b) (.wipe b) () (.buffer i b)
  | save {i ret : Nat} {b : B} {p : Mem} :
    Goes (.buffer i b) (.savePacket b i ret p) () (.saved i b)
  | handOver {i : Nat} {b : B} {q : Lane} : Goes (.saved i b) (.queuePacket (.lane q) b) () .rest
  | confirmed {i : Nat} {b : B} {id : OpennopId} : Goes (.saved i b) (.verify id) true (.saved i b)
  | forgotten {i : Nat} {b : B} {id : OpennopId} : Goes (.saved i b) (.verify id) false .rest
  | answer {i : Nat} {v : Verdict} (h : v.Issued) : Goes (.packet i) (.setVerdict i v) () .rest
  -- a processor
  | nothing {q : Lane} : Goes (.idle q) (.dequeuePacket (.lane q)) none (.idle q)
  | dequeue {q : Lane} {b : B} : Goes (.idle q) (.dequeuePacket (.lane q)) (some b) (.has q b)
  | load {q : Lane} {b : B} {i : Nat} {p : Mem} : Goes (.has q b) (.load b) (i, p) (.knows q b i)
  | store {q : Lane} {b : B} {i : Nat} {p : Mem} :
    Goes (.knows q b i) (.store b p) () (.knows q b i)
  | verdict {q : Lane} {b : B} {i : Nat} {v : Verdict} (h : v.Issued) :
    Goes (.knows q b i) (.setVerdict i v) () (.answered q b)
  | put {q : Lane} {b : B} : Goes (.answered q b) (.queuePacket .pool b) () (.returned q b)
  | readFlags {q : Lane} {b : B} {p : Mem} : Goes (.returned q b) (.readFlags b) p (.returned q b)
  -- the memory manager
  | resetAllocated : Goes .bootAllocated .resetAllocated () .bootPool
  | resetPool : Goes .bootPool (.resetQlen .pool) () .bootStaging
  | resetStaging : Goes .bootStaging (.resetQlen .staging) () (.staged 0)
  | level {n : Nat} : Goes (.staged 0) (.qlen .pool) n (.staged 0)
  | new {k : Nat} {b : B} : Goes (.staged k) .newpacket b (.staging k b)
  | stage {k : Nat} {b : B} : Goes (.staging k b) (.queuePacket .staging b) () (.staged (k + 1))
  | takeQueued {k : Nat} (h : 0 < k) : Goes (.staged k) .takeQueued () (.moving k)
  | addQueued {k : Nat} : Goes (.moving k) .addQueued k (.moved k)
  | miscounted {k n : Nat} (h : n ≠ k) : Goes (.moving k) .addQueued n .never
  | count {k : Nat} : Goes (.moved k) (.account k) () (.staged 0)
  | never {n : Nat} : Goes .never (.account n) () .never

def buffers {A B : Type} :
    Protocol (Act.Result (A := A) (B := B)) (Phase B) := ⟨fun _ _ => True, Goes⟩

/-! ## The buffers in hand -/

namespace Act

variable {A B : Type}

def puts : Act A B → Option B
  | .queuePacket _ b => some b
  | _ => none

/-- The buffers in hand after an action with its result. A packet whose second look at the neighbors
contradicts the first is left where it is. -/
def carried [DecidableEq B] (bs : List B) : (e : Act A B) → e.Result → List B
  | .dequeuePacket _, some b => bs ++ [b]
  | .newpacket, b => bs ++ [b]
  | .queuePacket _ b, _ => bs.erase b
  | .verify _, false => []
  | _, _ => bs

end Act

def hands {A B : Type} [DecidableEq B] : Protocol (Act.Result (A := A) (B := B)) (List B) where
  may bs e := ∀ b ∈ e.puts, b ∈ bs
  after bs e r bs' := bs' = e.carried bs r

section Hands

variable {A B : Type} {φ φ' : Phase B} {e : Act A B}

/-- A phase allows no other buffer to be put into a queue than the one in hand. -/
theorem Goes.mem_held {r : e.Result} (h : Goes φ e r φ') : ∀ b ∈ e.puts, b ∈ φ.held := by
  intro b hb
  cases h with
  | handOver | put | stage =>
    cases hb
    exact List.mem_singleton_self b
  | _ => cases hb

variable [DecidableEq B]

theorem Goes.held_eq {r : e.Result} (h : Goes φ e r φ') : φ'.held = e.carried φ.held r := by
  cases h with
  | handOver | put | stage => exact (List.erase_cons_head ..).symm
  | @call φ c r => cases c <;> rfl
  | _ => rfl

/-- **A program that keeps to the phases** puts away what it takes in hand. -/
theorem follows_hands {α : Type} {ψ : α → Phase B → Prop} {c : Job A B α}
    (h : Tree.Follows buffers ψ φ c) (hψ : ∀ x φ, ψ x φ → φ.held = []) :
    Tree.Follows hands (fun _ bs => bs = []) φ.held c := by
  refine h.map Phase.held (fun φ e _ hafter b hb => ?_) (fun φ e r φ' => Goes.held_eq) hψ
  cases e with
  | queuePacket n b' =>
    obtain ⟨φ', hgoes⟩ := hafter ()
    exact hgoes.mem_held b hb
  | _ => cases hb

end Hands

/-! ## The phases in the end -/

namespace Job

variable {B : Type}

def FetcherEnds (φ : Phase B) : Prop := φ = .rest ∨ φ = .never

def ProcessorEnds (q : Lane) (φ : Phase B) : Prop := φ = .idle q ∨ ∃ b, φ = .returned q b

/-- The phases at the end of the memory manager's programs. -/
def ManagerEnds (φ : Phase B) : Prop := φ = .staged 0 ∨ φ = .never

end Job

end Opennop
