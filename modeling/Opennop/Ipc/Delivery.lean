import Opennop.Ipc.Owned

/-!
# Each message once

The callback of `epoll_handler` runs once for an event, on a buffer that all descriptors share and
every `recv` overwrites from the start. `Delivered` says what it should amount to: for every
connection the messages that were processed are the complete messages of its stream, in order
(`Complete`), and no callback takes bytes for a message that did not come in with its event. It
holds in runs whose events bring one message each, or nothing while the buffer starts with no
message.
-/

namespace Opennop

open Mem

/-! ## Messages of a stream -/

/-- The bytes are a message: a header of the right type whose length is theirs. -/
def IsMessage (m : List UInt8) : Prop :=
  8 ≤ m.length ∧ Mem.ofList m 0 = msgTypeIpc ∧ msgLength (Mem.ofList m) = m.length

instance (m : List UInt8) : Decidable (IsMessage m) := by
  unfold IsMessage
  infer_instance

/-- `msgs` are the complete messages of the stream: what is left has none at its front. -/
def Complete (stream : List UInt8) (msgs : List (List UInt8)) : Prop :=
  (∀ m ∈ msgs, IsMessage m) ∧
    ∃ rest, stream = msgs.flatten ++ rest ∧ ∀ m, IsMessage m → ¬ m <+: rest

namespace Loop

/-! ## What is asked of a state -/

/-- What every socket is asked for, those that were closed among them. -/
def AllSockets (P : Socket → Prop) (s : Loop) : Prop :=
  (∀ fd k, s.sockets fd = some k → P k) ∧ ∀ k ∈ s.closed, P k

/-- No callback takes bytes for a message that did not come in with its event. -/
def LogFresh (s : Loop) : Prop :=
  ∀ c ∈ s.log, ∀ m, c.processed = some m → m <:+: c.received

/-- Every complete message was processed once, in order, and nothing else was. -/
structure Delivered (s : Loop) : Prop where
  complete : s.AllSockets fun k => Complete k.received k.handled
  fresh : s.LogFresh

/-- An event with data brings exactly one message in one read, or nothing while the buffer does not
start with a message. -/
def OneMessage (s : Loop) : IpcStep → Prop
  | .data _ chunks _ _ =>
    (∃ m, chunks = [m] ∧ IsMessage m) ∨ (chunks = [] ∧ s.buf 0 ≠ msgTypeIpc)
  | _ => True

variable {s : Loop} {P : Socket → Prop}

theorem AllSockets.mono {P' : Socket → Prop} (h : s.AllSockets P) (hP : ∀ k, P k → P' k) :
    s.AllSockets P' :=
  ⟨fun fd k hk => hP k (h.1 fd k hk), fun k hk => hP k (h.2 k hk)⟩

theorem AllSockets.setSocket (h : s.AllSockets P) (fd : Nat) {o : Option Socket}
    (ho : ∀ k, o = some k → P k) : (s.setSocket fd o).AllSockets P := by
  refine ⟨fun fd' k hk => ?_, h.2⟩
  unfold Loop.setSocket at hk
  dsimp only at hk
  by_cases hfd : fd' = fd
  · rw [hfd, Function.update_self] at hk
    exact ho k hk
  · rw [Function.update_of_ne hfd] at hk
    exact h.1 fd' k hk

theorem AllSockets.close (h : s.AllSockets P) (fd : Nat) : (s.close fd).AllSockets P := by
  unfold Loop.close
  cases hk : s.sockets fd with
  | none => exact h
  | some k =>
    have hnone : (s.setSocket fd none).AllSockets P := h.setSocket fd (by rintro k' ⟨⟩)
    refine ⟨hnone.1, fun k' hk' => ?_⟩
    rcases List.mem_cons.1 hk' with rfl | hk'
    · exact h.1 fd _ hk
    · exact h.2 k' hk'

theorem AllSockets.sayHello (h : s.AllSockets P) (i : Nat) (n : Neighbor) (now : Int)
    (answer : HelloAnswer) : (s.sayHello i n now answer).AllSockets P := by
  unfold Loop.sayHello
  dsimp only
  generalize hs' : (if n.state = .up ∧ now - n.timer > 30 then _ else _ : Loop) = s'
  have h' : s'.AllSockets P := by
    rw [← hs']
    split <;> exact h
  split
  · refine AllSockets.close ?_ n.sock
    exact h'
  · exact h'

theorem AllSockets.helloNeighbor (h : s.AllSockets P) (hnew : ∀ peer, P { peer }) (i : Nat)
    (now : Int) (answer : HelloAnswer) : (s.helloNeighbor i now answer).AllSockets P := by
  unfold Loop.helloNeighbor
  split
  · exact h
  · split
    · split
      · split
        · refine AllSockets.setSocket ?_ _ ?_
          · exact h
          · rintro k ⟨⟩
            exact hnew _
        · exact h
      · exact h
    · split
      · split
        · exact h.sayHello i _ now answer
        · exact h
      · exact h

theorem AllSockets.acceptClient (h : s.AllSockets P) (hnew : ∀ peer, P { peer }) (fd peer : Nat)
    (now : Int) : (s.acceptClient fd peer now).AllSockets P := by
  unfold Loop.acceptClient
  split
  · refine AllSockets.setSocket ?_ fd ?_
    · exact h
    · rintro k ⟨⟩
      exact hnew peer
  · refine ⟨h.1, fun k hk => ?_⟩
    rcases List.mem_cons.1 hk with rfl | hk
    · exact hnew peer
    · exact h.2 k hk

theorem AllSockets.receive (h : s.AllSockets P) (H : Hmac) (fd : Nat) (chunks : List (List UInt8))
    (now : Int)
    (hnote : ∀ k, P k → P (Socket.note k chunks.flatten (frontMessage (recvAll s.buf chunks)))) :
    (s.receive H fd chunks now).AllSockets P := by
  refine ⟨fun fd' k hk => ?_, h.2⟩
  have hk' : Function.update s.sockets fd ((s.sockets fd).map fun k =>
      Socket.note k chunks.flatten (frontMessage (recvAll s.buf chunks))) fd' = some k := hk
  by_cases hfd : fd' = fd
  · rw [hfd, Function.update_self] at hk'
    obtain ⟨k₀, hk₀, rfl⟩ := Option.map_eq_some_iff.1 hk'
    exact hnote k₀ (h.1 fd k₀ hk₀)
  · rw [Function.update_of_ne hfd] at hk'
    exact h.1 fd' k hk'

theorem log_close (s : Loop) (fd : Nat) : (s.close fd).log = s.log := by
  unfold close
  split <;> rfl

theorem log_sayHello (s : Loop) (i : Nat) (n : Neighbor) (now : Int) (answer : HelloAnswer) :
    (s.sayHello i n now answer).log = s.log := by
  unfold sayHello
  dsimp only
  generalize hs' : (if n.state = .up ∧ now - n.timer > 30 then _ else _ : Loop) = s'
  have h' : s'.log = s.log := by
    rw [← hs']
    split <;> rfl
  split
  · rw [log_close]
    exact h'
  · exact h'

theorem log_helloNeighbor (s : Loop) (i : Nat) (now : Int) (answer : HelloAnswer) :
    (s.helloNeighbor i now answer).log = s.log := by
  unfold helloNeighbor
  split
  · rfl
  · split
    · split
      · split <;> rfl
      · rfl
    · split
      · split
        · exact log_sayHello s i _ now answer
        · rfl
      · rfl

theorem log_acceptClient (s : Loop) (fd peer : Nat) (now : Int) :
    (s.acceptClient fd peer now).log = s.log := by
  unfold acceptClient
  split <;> rfl

/-! ## One event -/

/-- A socket whose stream so far is a sequence of messages, all of them processed. -/
def Whole (k : Socket) : Prop :=
  k.received = k.handled.flatten ∧ ∀ m ∈ k.handled, IsMessage m

theorem Whole.complete {k : Socket} (h : Whole k) : Complete k.received k.handled := by
  refine ⟨h.2, [], ?_, fun m hm hnil => ?_⟩
  · rw [List.append_nil]
    exact h.1
  · have hlength := hm.1
    rw [List.prefix_nil.1 hnil] at hlength
    exact absurd hlength (by decide)

/-- A message that is read in one piece is the one the handler finds. -/
theorem frontMessage_write (buf : Mem) {m : List UInt8} (h : IsMessage m) :
    frontMessage (buf.write 0 m) = some m := by
  obtain ⟨h8, htype, hlength⟩ := h
  have hsame : ∀ j < m.length, buf.write 0 m j = Mem.ofList m j := by
    intro j hj
    have hread := (holds_write buf 0 m).read (n := m.length) rfl
    have hget := of_read hread hj
    rw [Nat.zero_add] at hget
    rw [hget]
    unfold Mem.ofList
    rw [List.getD_eq_getElem?_getD, List.getElem?_eq_getElem hj]
    rfl
  have hlen : msgLength (buf.write 0 m) = m.length := by
    rw [← hlength]
    exact le16_congr fun j h₁ h₂ => hsame j (by omega)
  unfold frontMessage
  rw [if_pos (by rw [hsame 0 (by omega), htype]), hlen]
  exact congrArg some (holds_write buf 0 m)

theorem Whole.note {k : Socket} (h : Whole k) {buf : Mem} {chunks : List (List UInt8)}
    (hone : (∃ m, chunks = [m] ∧ IsMessage m) ∨ (chunks = [] ∧ buf 0 ≠ msgTypeIpc)) :
    Whole (Socket.note k chunks.flatten (frontMessage (recvAll buf chunks))) := by
  obtain ⟨hreceived, hall⟩ := h
  rcases hone with ⟨m, rfl, hm⟩ | ⟨rfl, hbuf⟩
  · have hfront : frontMessage (recvAll buf [m]) = some m := frontMessage_write buf hm
    rw [hfront]
    refine ⟨?_, fun m' hm' => ?_⟩
    · unfold Socket.note
      simp [hreceived]
    · unfold Socket.note at hm'
      rcases List.mem_append.1 hm' with hm' | hm'
      · exact hall m' hm'
      · rw [Option.toList_some, List.mem_singleton] at hm'
        exact hm' ▸ hm
  · have hfront : frontMessage (recvAll buf []) = none := if_neg hbuf
    rw [hfront]
    unfold Socket.note Whole
    simpa using ⟨hreceived, hall⟩

theorem LogFresh.receive (h : s.LogFresh) (H : Hmac) (fd : Nat) {chunks : List (List UInt8)}
    (now : Int)
    (hone : (∃ m, chunks = [m] ∧ IsMessage m) ∨ (chunks = [] ∧ s.buf 0 ≠ msgTypeIpc)) :
    (s.receive H fd chunks now).LogFresh := by
  intro c hc m hm
  rcases List.mem_cons.1 hc with rfl | hc
  · rcases hone with ⟨m', rfl, hm'⟩ | ⟨rfl, hbuf⟩
    · have hfront : frontMessage (recvAll s.buf [m']) = some m' := frontMessage_write s.buf hm'
      obtain rfl : m' = m := Option.some_inj.1 (hfront.symm.trans hm)
      exact List.flatten_singleton.symm ▸ List.infix_rfl
    · have hfront : frontMessage (recvAll s.buf []) = none := if_neg hbuf
      exact absurd (hfront.symm.trans hm) (by simp)
  · exact h c hc m hm

/-! ## One step -/

/-- What the runs below keep. -/
structure Settled (s : Loop) : Prop where
  whole : s.AllSockets Whole
  fresh : s.LogFresh

theorem Settled.of_log {s' : Loop} (h : s.Settled) (hwhole : s'.AllSockets Whole)
    (hlog : s'.log = s.log) : s'.Settled :=
  ⟨hwhole, fun c hc => h.fresh c (hlog ▸ hc)⟩

theorem Settled.delivered (h : s.Settled) : s.Delivered :=
  ⟨h.whole.mono fun _ hk => hk.complete, h.fresh⟩

theorem Settled.step (h : s.Settled) (H : Hmac) {st : IpcStep} (hone : s.OneMessage st) :
    (Loop.step H s st).Settled := by
  have hnew : ∀ peer, Whole { peer } := fun _ => ⟨rfl, by simp⟩
  cases st with
  | hello i now answer =>
    exact h.of_log (h.whole.helloNeighbor hnew i now answer) (log_helloNeighbor s i now answer)
  | accept fd peer now =>
    exact h.of_log (h.whole.acceptClient hnew fd peer now) (log_acceptClient s fd peer now)
  | data fd chunks fin now =>
    have hreceive : (s.receive H fd chunks now).Settled :=
      ⟨h.whole.receive H fd chunks now fun _ hk => hk.note hone, h.fresh.receive H fd now hone⟩
    unfold Loop.step Loop.readData
    dsimp only
    split
    · exact hreceive
    · exact hreceive.of_log (hreceive.whole.close fd) (log_close _ fd)
  | hangup fd => exact h.of_log (h.whole.close fd) (log_close s fd)
  | reset fd =>
    refine h.of_log (h.whole.setSocket fd fun k hk => ?_) rfl
    obtain ⟨k₀, hk₀, rfl⟩ := Option.map_eq_some_iff.1 hk
    exact h.whole.1 fd k₀ hk₀
  | addUpdate ip key now =>
    unfold Loop.step Loop.addUpdateNeighbor
    dsimp only
    split <;> exact h.of_log h.whole rfl
  | delete ip =>
    unfold Loop.step Loop.delNeighbor
    dsimp only
    split <;> exact h.of_log h.whole rfl

/-- An event without data changes no neighbor while the buffer does not start with a message. -/
theorem neighbors_readData_nil (H : Hmac) (hbuf : s.buf 0 ≠ msgTypeIpc) (fd : Nat) (fin : RecvEnd)
    (now : Int) : (s.readData H fd [] fin now).node.neighbors = s.node.neighbors := by
  have hreceive : (s.receive H fd [] now).node.neighbors = s.node.neighbors := by
    have hhandler : ipcHandler H now s.node (s.getpeername fd) (recvAll s.buf []) =
        refuse s.node 0 (recvAll s.buf []) := if_neg hbuf
    exact congrArg Handled.neighbors hhandler
  unfold readData
  dsimp only
  split
  · exact hreceive
  · rw [node_close]
    exact hreceive

/-! ## Whole runs -/

theorem Initial.settled (h : s.Initial) : s.Settled := by
  refine ⟨⟨fun fd k hk => ?_, fun k hk => ?_⟩, fun c hc => ?_⟩
  · exact absurd ((h.sockets fd).symm.trans hk) (by simp)
  · rw [h.closed] at hk
    exact absurd hk (by simp)
  · rw [h.log] at hc
    exact absurd hc (by simp)

/-- A close of the peer changes no neighbor. -/
def QuietClose (H : Hmac) (s : Loop) : IpcStep → Prop
  | .data fd [] fin now => (s.readData H fd [] fin now).node.neighbors = s.node.neighbors
  | _ => True

theorem OneMessage.quietClose {st : IpcStep} (h : s.OneMessage st) (H : Hmac) :
    s.QuietClose H st := by
  cases st with
  | data fd chunks fin now =>
    cases chunks with
    | nil =>
      rcases h with ⟨m, hm, -⟩ | ⟨-, hbuf⟩
      · exact absurd hm (by simp)
      · exact neighbors_readData_nil H hbuf fd fin now
    | cons chunk chunks => trivial
  | _ => trivial

/-- **While each event brings one message, or nothing before the first message**, every message of
every connection is processed once, in order and with its own event, and a close of the peer changes
no neighbor. -/
theorem delivered_always (H : Hmac) {s : Loop} (hs : s.Initial) {l : List IpcStep}
    (hone : Trace.Along (step H) OneMessage s l) :
    Trace.Always (step H) Delivered s l ∧ Trace.Along (step H) (QuietClose H) s l := by
  have hsettled : Trace.Always (step H) Settled s l :=
    Trace.Always.of_step (fun _ _ h hone => h.step H hone) hs.settled hone
  exact ⟨hsettled.mono fun _ h => h.delivered, hone.mono fun _ _ h => h.quietClose H⟩

theorem delivered_always_greeting :
    Trace.Always (step sumHmac) Delivered twoNeighbors (greeting 33554442 0) ∧
      (Trace.run (step sumHmac) twoNeighbors (greeting 33554442 0)).log.length = 1 := by
  have hone : Trace.Along (step sumHmac) OneMessage twoNeighbors (greeting 33554442 0) :=
    ⟨trivial, .inl ⟨_, rfl, by decide +kernel⟩, trivial⟩
  exact ⟨(delivered_always sumHmac initial_twoNeighbors hone).1, by decide +kernel⟩

/-- The first neighbor greets, is silent until its hello times out, and closes its connection. -/
def closing : List IpcStep :=
  greeting 33554442 0 ++ [.hello 0 40 {}]

/-- The close runs the callback on what the greeting left in the buffer: the message is processed a
second time, with an event that brought nothing, and the neighbor comes UP. -/
theorem not_delivered_always_closing :
    twoNeighbors.Initial ∧
      Trace.Along (step sumHmac) Allowed twoNeighbors (closing ++ [.data 5 [] .eof 41]) ∧
      ¬ Trace.Always (step sumHmac) Delivered twoNeighbors (closing ++ [.data 5 [] .eof 41]) ∧
      (Trace.run (step sumHmac) twoNeighbors closing).node.neighbors.map Neighbor.state =
        [.down, .down] ∧
      (Trace.run (step sumHmac) twoNeighbors (closing ++ [.data 5 [] .eof 41])).node.neighbors.map
        Neighbor.state = [.up, .down] := by
  refine ⟨initial_twoNeighbors, by
    decide +kernel, fun h => ?_, by decide +kernel, by decide +kernel⟩
  have hempty : ∃ c ∈ (Trace.run (step sumHmac) twoNeighbors (closing ++ [.data 5 [] .eof 41])).log,
      c.received = [] ∧ c.processed =
        some (headerBytes 16 0 ++ bodyBytes .iSeeYou ⟨2, 2, 2, 2⟩) :=
    ⟨_, List.mem_cons_self, by decide +kernel, by decide +kernel⟩
  obtain ⟨c, hc, hreceived, hprocessed⟩ := hempty
  have hinfix := h.last.fresh c hc _ hprocessed
  rw [hreceived, List.infix_nil] at hinfix
  exact absurd hinfix (by decide)

end Loop

end Opennop
