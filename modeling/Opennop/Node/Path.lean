import Opennop.Lib.Trace
import Opennop.Node.Accelerated
import Opennop.Node.Ordinary

/-!
# Two nodes on the path of a connection

The path is client – A – C – server. A packet of an endpoint comes to the fetcher of the node next
to it; what that node sends on is on the wire between the two nodes, in either direction and in any
order, until the fetcher of the other node gets it; what the other node sends on is delivered. In
between, a packet may wait for a worker of the node it is at. `Net` is the state of the two nodes
for one connection with the packets on their way, and an `Action` is one call of `fetcher_callback`,
one pass of `worker_thread`, the loss of a packet between the nodes, or the removal of a session
that the sweep for dead sessions has found.

The session tables and the other connections are left to `Sound.fetcherCallback` and
`Sound.workerThread`. Three things are noted about a packet that the nodes themselves do not know:
where it has entered the path, whether a worker has compressed it there, and whether it was
decompressed before it was delivered.
-/

namespace Opennop

open Mem

/-! ## The second node -/

/-- The worker decompresses the packet, and what it sends on is the result. -/
def Unpacks (env : Env) (st : Option Session) (p : Mem) (v : Verdict) : Prop :=
  ∃ s q r, st = some s ∧ Decompresses env s p ∧
    tcpDecompress env.qlz true env.stateDecompress p = .ok (q, r) ∧ r ≠ 0 ∧ v = .accept (checksum q)

/-- A packet that the node `id` has compressed, as it arrives at the node of `env`. -/
structure Marked (env : Env) (id : OpennopId) (p : Mem) : Prop where
  tcp : p.protocol = ipprotoTcp
  flags : Rewritten p
  tag : remoteID env p = .ok (some id)
  flag : ∃ v, getTcpOption p compressed = .ok v ∧ v ≠ 0

section Sides

variable {env : Env} {p : Mem} {s : Session}

theorem Side.other_ne (side : Side) : side.other ≠ side := by cases side <;> decide

/-- With the local ID for the source, a packet is compressed when the destination has another
accelerator. -/
theorem mayCompress_iff_accel {q : Mem} (hsaddr : q.saddr = p.saddr)
    (hs : s.accel (sourceSide p.key.largerIP p) = env.id) :
    mayCompress env p.key q s = true ↔
      (s.accel (sourceSide p.key.largerIP p).other ≠ .zero ∧
        s.accel (sourceSide p.key.largerIP p).other ≠ env.id) ∧ s.state = .established := by
  rw [mayCompress_iff, hsaddr]
  by_cases hl : p.saddr = p.key.largerIP
  · rw [sourceSide, if_pos hl] at hs ⊢
    exact and_congr_left fun _ =>
      ⟨fun h => h.elim (fun h => h.2.2) fun h => absurd hs h.2.2.2, fun h => .inl ⟨hl, hs, h⟩⟩
  · rw [sourceSide, if_neg hl] at hs ⊢
    exact and_congr_left fun _ => ⟨fun h => h.elim (fun h => absurd h.1 hl) fun h => h.2.2,
      fun h => .inr ⟨(saddr_eq_or p).resolve_left hl, hs, h⟩⟩

/-- The destination's accelerator is on the side that the packet does not come from. -/
theorem mayDecompress_of_accel (h : s.accel (sourceSide p.key.largerIP p).other = env.id) :
    mayDecompress env p.key p s = true := by
  rw [mayDecompress_iff]
  by_cases hl : p.saddr = p.key.largerIP
  · rw [sourceSide, if_pos hl] at h
    exact .inl ⟨hl, h⟩
  · rw [sourceSide, if_neg hl] at h
    exact .inr ⟨(saddr_eq_or p).resolve_left hl, h⟩

/-- Two endpoints with one address are not told apart. -/
theorem accel_of_mayDecompress (hips : p.key.smallerIP ≠ p.key.largerIP)
    (h : mayDecompress env p.key p s = true) :
    s.accel (sourceSide p.key.largerIP p).other = env.id := by
  rw [mayDecompress_iff] at h
  rcases h with ⟨hl, haccel⟩ | ⟨hsm, haccel⟩
  · rw [sourceSide, if_pos hl]
    exact haccel
  · rw [sourceSide, if_neg fun hl => hips (hsm.symm.trans hl)]
    exact haccel

theorem Session.accel_other_saveacceleratorid (s : Session) (k : Nat) (p : Mem) (id : OpennopId) :
    (saveacceleratorid k id p s).accel (sourceSide k p).other = s.accel (sourceSide k p).other := by
  rw [Session.accel_saveacceleratorid, if_neg fun h => Side.other_ne _ h.2]

theorem Session.accel_source_saveacceleratorid (s : Session) {k : Nat} (h0 : k ≠ 0) (p : Mem)
    (id : OpennopId) :
    (saveacceleratorid k id p s).accel (sourceSide k p) = id := by
  rw [Session.accel_saveacceleratorid, if_pos ⟨h0, rfl⟩]

end Sides

section Second

variable {env : Env} {p : Mem}

theorem inDomain_of_verified {id : OpennopId}
    (hid : verifyNeighborInDomain env.neighbors id = true) :
    inDomain env (some id) = some id :=
  Option.filter_eq_some_iff.2 ⟨rfl, hid⟩

variable {id : OpennopId} (h : Marked env id p)
  (hid : verifyNeighborInDomain env.neighbors id = true)
include h hid

/-- **A worker whose session records the local node for the destination decompresses the packet**,
or drops it. -/
theorem Marked.workerRecord (reread : Mem) {s : Session}
    (hs : s.accel (sourceSide p.key.largerIP p).other = env.id) :
    Post (Opennop.workerRecord env reread p (some s)) fun r =>
      ∀ q, r.2.sent p = some q → Unpacks env (some s) p r.2 := by
  obtain ⟨v, hv, hne⟩ := h.flag
  have hmay : mayDecompress env p.key p (saveacceleratorid p.key.largerIP id p s) = true := by
    refine mayDecompress_of_accel ?_
    rw [Session.accel_other_saveacceleratorid, hs]
  have hdec : Decompresses env s p :=
    ⟨h.flags, ⟨v, hv, hne⟩, some id, id, h.tag, inDomain_of_verified hid, hmay⟩
  have hproc : processRecord env (some id) p s = (do
      let r ← tcpDecompress env.qlz true env.stateDecompress p
      if r.2 = 0 then return (saveacceleratorid p.key.largerIP id p s, r.1, false)
      else return (updateseq p.key.largerIP r.1 (saveacceleratorid p.key.largerIP id p s),
        r.1, true)) := by
    unfold processRecord
    rw [if_pos (show ¬ p.syn ∧ p.ack ∧ ¬ p.fin from h.flags), inDomain_of_verified hid]
    dsimp only [deoptimizeRecord]
    rw [hv, ok_bind, if_pos hne, if_pos hmay]
  cases hd : tcpDecompress env.qlz true env.stateDecompress p with
  | error e =>
    unfold Opennop.workerRecord
    rw [h.tag, ok_bind]
    dsimp only
    rw [hproc, hd]
    exact Post.error
  | ok r =>
    obtain ⟨q, result⟩ := r
    rw [hd, ok_bind] at hproc
    dsimp only at hproc
    by_cases hresult : result = 0
    · rw [if_pos hresult] at hproc
      rw [workerRecord_of_process h.tag hproc]
      refine Post.ok fun q' hq' => ?_
      cases hq'
    · rw [if_neg hresult] at hproc
      rw [workerRecord_of_process h.tag hproc]
      exact Post.ok fun q' _ => ⟨s, q, result, rfl, hdec, hd, hresult, rfl⟩

omit hid in
/-- The fetcher queues the packet if there is a session. -/
theorem Marked.fetcherRecord (hrun : env.running) (number ret : Nat) (buffer : Bool)
    (new : Option Session) (s : Session) :
    Opennop.fetcherRecord env (number + 1) ret buffer new p (some s) =
      .ok (some s, dataVerdict env (some id) ret buffer p s.queue) := by
  unfold Opennop.fetcherRecord
  rw [if_pos hrun, if_pos ⟨h.tcp, Nat.succ_ne_zero number⟩, h.tag, ok_bind,
    if_neg fun hsyn => h.flags.1 hsyn.1]
  dsimp only
  rw [if_neg fun hsyn => h.flags.1 hsyn.1]
  rfl

end Second

/-! ## The state of the path -/

/-- The two nodes: A next to the client, C next to the server. -/
inductive Hop where
  | a
  | c
  deriving DecidableEq, Repr

def Hop.other : Hop → Hop
  | .a => .c
  | .c => .a

theorem Hop.other_ne (h : Hop) : h.other ≠ h := by cases h <;> decide

structure Datagram where
  /-- The node it came to first. -/
  entry : Hop
  mem : Mem
  /-- A worker of that node has compressed it. -/
  packed : Prop

/-- A packet that waits for a worker: the packet as the kernel holds it, and the copy in the
queue. -/
structure Waiting where
  packet : Datagram
  copy : Mem

structure Delivery where
  packet : Datagram
  /-- It was decompressed before. -/
  unpacked : Prop

/-- The state of both nodes, with the packets on their way. -/
structure Net where
  /-- The session of the connection in the table of a node. -/
  record : Hop → Option Session
  waiting : Hop → List Waiting
  wire : List Datagram
  delivered : List Delivery
  /-- One of the nodes has faulted. -/
  down : Bool

def Net.init : Net := ⟨fun _ => none, fun _ => [], [], [], false⟩

/-- What became of the packet `x` at the node `h`: the record, and the verdict. -/
def Net.settle (n : Net) (h : Hop) (x : Datagram) (packed : Prop) (unpacked : Verdict → Prop) :
    Exec (Option Session × Verdict) → Net
  | .error _ => { n with down := true }
  | .ok (st, v) =>
    { n with
      record := Function.update n.record h st
      waiting := Function.update n.waiting h (n.waiting h ++ (v.copied.map (Waiting.mk x)).toList)
      wire := n.wire ++
        if h = x.entry then ((v.sent x.mem).map fun q => ⟨x.entry, q, packed⟩).toList else []
      delivered := n.delivered ++
        if h = x.entry then [] else ((v.sent x.mem).map fun _ => ⟨x, unpacked v⟩).toList }

/-- What a call of the fetcher depends on besides the packet: the number of the packet, counted from
zero here, whether there is a buffer, and the queue of a new session, if there is memory for one. -/
structure Fetch where
  number : Nat
  buffer : Bool
  queue : Option Nat

/-- The nodes, the connection, and the client's side in the sessions. -/
structure Path where
  env : Hop → Env
  key : Key
  client : Side

namespace Path

inductive Action where
  /-- A packet of an endpoint comes to the fetcher of the node next to it. -/
  | send (entry : Hop) (p : Mem) (f : Fetch)
  /-- A packet between the nodes comes to the fetcher of the second node. -/
  | fetch (i : Nat) (f : Fetch)
  /-- A packet between the nodes is lost. -/
  | lose (i : Nat)
  /-- A worker takes a packet; `reread` is in the packet's buffer if its flags are read once
  more. -/
  | work (h : Hop) (i : Nat) (reread : Mem)
  /-- The session was dead. -/
  | sweep (h : Hop)

variable (P : Path)

def side : Hop → Side
  | .a => P.client
  | .c => P.client.other

/-- `fetcher_callback` at the node `h`. The kernel has trimmed the packet to its total length. -/
def fetch (n : Net) (h : Hop) (x : Datagram) (f : Fetch) : Net :=
  n.settle h x x.packed (fun _ => False)
    (fetcherRecord (P.env h) (f.number + 1) x.mem.totLen f.buffer
    (f.queue.map (newSession P.key)) x.mem (n.record h))

/-- A pass of `worker_thread` at the node `h`. -/
def work (n : Net) (h : Hop) (w : Waiting) (reread : Mem) : Net :=
  n.settle h w.packet (w.packet.packed ∨ Packs (P.env h) (n.record h) w.copy)
    (Unpacks (P.env h) (n.record h) w.copy) (workerRecord (P.env h) reread w.copy (n.record h))

/-- One action; nothing happens any more when a node is down. -/
def step (n : Net) : Action → Net
  | .send entry p f => if n.down then n else P.fetch n entry ⟨entry, p, False⟩ f
  | .fetch i f =>
    if n.down then n else
      match n.wire[i]? with
      | some x => P.fetch { n with wire := n.wire.eraseIdx i } x.entry.other x f
      | none => n
  | .lose i => if n.down then n else { n with wire := n.wire.eraseIdx i }
  | .work h i reread =>
    if n.down then n else
      match (n.waiting h)[i]? with
      | some w =>
        P.work
          { n with waiting := Function.update n.waiting h ((n.waiting h).eraseIdx i) } h w reread
      | none => n
  | .sweep h => if n.down then n else { n with record := Function.update n.record h none }

end Path

end Opennop
