import Opennop.Ipc.Trust

/-!
# The timeout of a neighbor

`hello_neighbors` takes a silent neighbor out of UP by way of its socket: it asks for the peer of
the descriptor and looks for the entry of that address. So the right entry leaves UP as long as
sockets are owned, and it leaves UP at all only if it has a socket. Two kinds of steps break this.
`epoll_handler` closes a descriptor that an entry records, and an I_SEE_YOU on an older connection
brings an entry UP whose socket has been cleared. In runs without them every state has the whole
property (`owns_always_iff`).
-/

namespace Opennop

namespace Loop

variable {s : Loop} {H : Hmac}

def Reachable (s : Loop) : Prop := ∀ n ∈ s.node.neighbors, n.state = .up → n.sock ≠ 0

/-- The step brings an entry UP that has no socket: it accepts an I_SEE_YOU from its address, on
another connection. -/
def RaisesUnreachable (H : Hmac) (s : Loop) (st : IpcStep) : Prop :=
  ∃ n id now, s.Accepts H st n .iSeeYou id now ∧ n.sock = 0

/-! ## The timeout needs a socket -/

theorem Reachable.modify (h : s.Reachable) {f : Neighbor → Neighbor} (i : Nat)
    (hf : ∀ n, s.node.neighbors[i]? = some n → (n.state = .up → n.sock ≠ 0) →
      (f n).state = .up → (f n).sock ≠ 0) :
    ∀ n ∈ s.node.neighbors.modify i f, n.state = .up → n.sock ≠ 0 := by
  intro n' hn'
  rcases mem_modify hn' with hmem | ⟨n, hn, rfl⟩
  · exact h n' hmem
  · exact hf n hn (h n (List.mem_of_getElem? hn))

theorem Reachable.of_eq {s' : Loop} (h : s.Reachable) (heq : s'.node.neighbors = s.node.neighbors) :
    s'.Reachable := by
  unfold Reachable
  rw [heq]
  exact h

theorem Reachable.sayHello (h : s.Reachable) (i : Nat) (n : Neighbor) (now : Int)
    (answer : HelloAnswer) : (s.sayHello i n now answer).Reachable := by
  unfold Loop.sayHello
  dsimp only
  generalize hs' : (if n.state = .up ∧ now - n.timer > 30 then _ else _ : Loop) = s'
  have htimer : (s.modifyNeighbor i fun n => { n with hellotimer := now }).Reachable :=
    h.modify i fun _ _ hn => hn
  have hreach : s'.Reachable := by
    rw [← hs']
    split
    · -- whichever entry the peer of the socket finds is DOWN then
      unfold ipcSetNeighborState updateNeighbor
      split
      · exact htimer.modify _ fun _ _ _ hup => nomatch hup
      · exact htimer
    · exact htimer
  split
  · exact Reachable.of_eq (s := s'.modifyNeighbor i fun n => { n with state := .down, sock := 0 })
      (hreach.modify i fun _ _ _ hup => nomatch hup) (by rw [node_close])
  · exact hreach

theorem Reachable.helloNeighbor (h : s.Reachable) (i : Nat) (now : Int) (answer : HelloAnswer) :
    (s.helloNeighbor i now answer).Reachable := by
  unfold Loop.helloNeighbor
  split
  · exact h
  · next n _ =>
    split
    · split
      · split
        · exact h.modify i fun _ _ _ hup => nomatch hup
        · exact h.modify i fun _ _ hn => hn
      · exact h.modify i fun _ _ _ hup => nomatch hup
    · split
      · split
        · exact h.sayHello i n now answer
        · exact h
      · exact h

/-- An event with data brings an entry without a socket UP exactly when it accepts an I_SEE_YOU for
it. -/
theorem Reachable.readData_iff (h : s.Reachable) (fd : Nat) (chunks : List (List UInt8))
    (fin : RecvEnd) (now : Int) : (s.readData H fd chunks fin now).Reachable ↔
      ¬ RaisesUnreachable H s (.data fd chunks fin now) := by
  unfold Reachable
  rw [node_readData]
  dsimp only
  constructor
  · rintro hreach ⟨n, id, now', ⟨fd', chunks', fin', i, hst, hacc⟩, h0⟩
    cases hst
    rw [(hacc.delivers now).1] at hreach
    have hmem :
        deliver now id .iSeeYou n ∈ s.node.neighbors.modify i (deliver now id .iSeeYou) := by
      refine List.mem_of_getElem? (i := i) ?_
      rw [List.getElem?_modify, hacc.entry]
      simp
    exact hreach _ hmem rfl h0
  · intro hno
    rcases ipcHandler_cases H now s.node (s.getpeername fd) (recvAll s.buf chunks) with
      ⟨i, n, type, id, hacc⟩ | ⟨hsame, -⟩
    · rw [(hacc.delivers now).1]
      refine h.modify i fun n' hn' hreach => ?_
      rw [hacc.entry] at hn'
      cases hn'
      rcases hacc.known with rfl | rfl
      · exact hreach
      · exact fun _ h0 => hno ⟨n, id, now, ⟨fd, chunks, fin, i, rfl, hacc⟩, h0⟩
    · rw [hsame]
      exact h

theorem Reachable.addUpdateNeighbor (h : s.Reachable) (ip : Nat) (key : IpcKey) (now : Int) :
    (s.addUpdateNeighbor ip key now).Reachable := by
  unfold Loop.addUpdateNeighbor
  split
  · exact h.modify _ fun _ _ hn => hn
  · intro n hn hup
    rcases List.mem_append.1 hn with hn | hn
    · exact h n hn hup
    · rw [List.mem_singleton.1 hn] at hup
      cases hup

theorem Reachable.delNeighbor (h : s.Reachable) (ip : Nat) : (s.delNeighbor ip).Reachable := by
  unfold Loop.delNeighbor
  split
  · exact fun n hn => h n (List.mem_of_mem_eraseIdx hn)
  · exact h

/-- **One step** keeps the entries that are UP within reach exactly when it brings no other one
UP. -/
theorem Reachable.step_iff (h : s.Reachable) (H : Hmac) (st : IpcStep) :
    (s.step H st).Reachable ↔ ¬ RaisesUnreachable H s st := by
  have hkeeps : (∀ fd chunks fin now, st ≠ .data fd chunks fin now) → (s.step H st).Reachable →
      ((s.step H st).Reachable ↔ ¬ RaisesUnreachable H s st) := by
    refine fun hne hreach => ⟨?_, fun _ => hreach⟩
    rintro - ⟨n, id, now, ⟨fd, chunks, fin, i, hst, -⟩, -⟩
    exact hne fd chunks fin now hst
  cases st with
  | hello i now answer => exact hkeeps nofun (h.helloNeighbor i now answer)
  | accept fd peer now =>
    refine hkeeps nofun ?_
    unfold Loop.step acceptClient
    dsimp only
    split
    · exact h.modify _ fun _ _ _ hup => nomatch hup
    · exact h
  | data fd chunks fin now => exact h.readData_iff fd chunks fin now
  | hangup fd =>
    exact hkeeps nofun (h.of_eq (by change (s.close fd).node.neighbors = _; rw [node_close]))
  | reset fd => exact hkeeps nofun h
  | addUpdate ip key now => exact hkeeps nofun (h.addUpdateNeighbor ip key now)
  | delete ip => exact hkeeps nofun (h.delNeighbor ip)

/-! ## Whole runs -/

end Loop

end Opennop
