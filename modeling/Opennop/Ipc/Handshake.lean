import Opennop.Ipc.Trust

/-!
# The handshake between nodes

A domain of nodes, each with its IPC thread, on a network that may lose, repeat, reorder, delay and
redirect messages and may make up any others; only, it cannot make up an HMAC: what passes the check
with a key was sent by a node that has this key. And every event brings the whole of the message
that is processed, as it was shown in `Opennop.Ipc.Trust` that nothing holds otherwise. Then a
neighbor is UP only after a round trip: a node with the key that is configured for the neighbor has
answered a HERE_I_AM. Which node said that HERE_I_AM, the messages do not tell.
-/

namespace Opennop

open Mem

theorem message_unique {m : Mem} {o : Nat} {type type' : IpcMsgType} {id id' : OpennopId}
    (hbody : m.Holds o (bodyBytes type' id')) (htype : m.le16 o = type.toNat)
    (hid : OpennopId.load m (o + 4) = id) : type' = type ∧ id' = id := by
  obtain ⟨⟨h0, h1, -, -⟩, hid'⟩ := holds_body.1 hbody
  constructor
  · rw [le16, h0, h1] at htype
    cases type' <;> cases type <;> first | rfl | cases htype
  · rw [← hid]
    exact (OpennopId.bytes_inj (by rw [OpennopId.load_bytes]; exact hid'.read rfl)).symm

namespace Loop

/-- The messages that a step sends: a hello that is due, and the answers of `ipc_handler`. -/
def sends (H : Hmac) (s : Loop) : IpcStep → List (List UInt8)
  | .hello i now answer =>
    match s.node.neighbors[i]? with
    | none => []
    | some n =>
      if n.state.toNat ≥ NeighborState.attempt.toNat ∧ now - n.hellotimer ≥ 10 ∧ n.sock ≠ 0 ∧
          s.sendFails n.sock answer = false then
        [ipcSendMessage H s.node.key s.node.id .hereIAm]
      else []
  | .data fd chunks _ now =>
    (ipcHandler H now s.node (s.getpeername fd) (recvAll s.buf chunks)).replies
  | _ => []

/-- In this step the node says hello, or answers one. -/
def Says (H : Hmac) (s : Loop) (st : IpcStep) : IpcMsgType → Prop
  | .hereIAm => ∃ i now answer, st = .hello i now answer ∧ s.sends H st ≠ []
  | .iSeeYou => ∃ n id now, s.Accepts H st n .hereIAm id now
  | _ => False

variable {H : Hmac} {s : Loop} {st : IpcStep}

theorem says_of_mem_sends {m : List UInt8} (h : m ∈ s.sends H st) :
    ∃ type, (type = .hereIAm ∨ type = .iSeeYou) ∧ m = ipcSendMessage H s.node.key s.node.id type ∧
      s.Says H st type := by
  cases st with
  | hello i now answer =>
    refine ⟨.hereIAm, .inl rfl, ?_, i, now, answer, rfl, List.ne_nil_of_mem h⟩
    unfold sends at h
    dsimp only at h
    split at h
    · cases h
    · split at h
      · exact List.mem_singleton.1 h
      · cases h
  | data fd chunks fin now =>
    change m ∈ (ipcHandler H now s.node (s.getpeername fd) (recvAll s.buf chunks)).replies at h
    rcases ipcHandler_cases H now s.node (s.getpeername fd) (recvAll s.buf chunks) with
      ⟨i, n, type, id, hacc⟩ | ⟨-, hnone⟩
    · rw [(hacc.delivers now).2] at h
      split at h
      · rename_i htype
        subst htype
        exact ⟨.iSeeYou, .inr rfl, List.mem_singleton.1 h, n, id, now, fd, chunks,
          fin, i, rfl, hacc⟩
      · cases h
    · rw [hnone] at h
      cases h
  | accept fd peer now => cases h
  | hangup fd => cases h
  | reset fd => cases h
  | addUpdate ip key now => cases h
  | delete ip => cases h

structure SameIdentity (s s' : Loop) : Prop where
  key : s'.node.key = s.node.key
  id : s'.node.id = s.node.id

theorem SameIdentity.trans {s' s'' : Loop} (h : SameIdentity s s') (h' : SameIdentity s' s'') :
    SameIdentity s s'' :=
  ⟨h'.key.trans h.key, h'.id.trans h.id⟩

theorem sameIdentity_close (s : Loop) (fd : Nat) : SameIdentity s (s.close fd) :=
  ⟨congrArg IpcNode.key (node_close s fd), congrArg IpcNode.id (node_close s fd)⟩

theorem sameIdentity_helloNeighbor (s : Loop) (i : Nat) (now : Int) (answer : HelloAnswer) :
    SameIdentity s (s.helloNeighbor i now answer) := by
  have hsay : ∀ n : Neighbor, SameIdentity s (s.sayHello i n now answer) := by
    intro n
    unfold sayHello
    dsimp only
    generalize hs' : (if n.state = .up ∧ now - n.timer > 30 then _ else _ : Loop) = s'
    have hsame : SameIdentity s s' := by
      rw [← hs']
      split <;> exact ⟨rfl, rfl⟩
    split
    · exact ⟨(sameIdentity_close _ _).key.trans hsame.key,
        (sameIdentity_close _ _).id.trans hsame.id⟩
    · exact hsame
  unfold helloNeighbor
  split
  · exact ⟨rfl, rfl⟩
  · split
    · split
      · split <;> exact ⟨rfl, rfl⟩
      · exact ⟨rfl, rfl⟩
    · split
      · split
        · exact hsay _
        · exact ⟨rfl, rfl⟩
      · exact ⟨rfl, rfl⟩

theorem sameIdentity_step (H : Hmac) (s : Loop) (st : IpcStep) : SameIdentity s (s.step H st) := by
  cases st with
  | hello i now answer => exact sameIdentity_helloNeighbor s i now answer
  | accept fd peer now =>
    change SameIdentity s (s.acceptClient fd peer now)
    unfold acceptClient
    split <;> exact ⟨rfl, rfl⟩
  | data fd chunks fin now =>
    change SameIdentity s (s.readData H fd chunks fin now)
    refine ⟨?_, ?_⟩ <;> rw [node_readData]
  | hangup fd => exact sameIdentity_close s fd
  | reset fd => exact ⟨rfl, rfl⟩
  | addUpdate ip key now =>
    change SameIdentity s (s.addUpdateNeighbor ip key now)
    unfold addUpdateNeighbor
    split <;> exact ⟨rfl, rfl⟩
  | delete ip =>
    change SameIdentity s (s.delNeighbor ip)
    unfold delNeighbor
    split <;> exact ⟨rfl, rfl⟩

/-- The bytes that an event brings cover the message that is processed. -/
def Overwrites (s : Loop) : IpcStep → Prop
  | .data _ chunks _ _ => recvAll s.buf chunks 0 = msgTypeIpc →
      ∃ c ∈ chunks, msgLength (recvAll s.buf chunks) ≤ c.length
  | _ => True

end Loop

structure Domain (ι : Type) where
  nodes : ι → Loop
  sent : List (ι × List UInt8)

namespace Domain

variable {ι : Type} [DecidableEq ι]

def step (H : Hmac) (d : Domain ι) (x : ι × IpcStep) : Domain ι where
  nodes := Function.update d.nodes x.1 ((d.nodes x.1).step H x.2)
  sent := ((d.nodes x.1).sends H x.2).map (fun m => (x.1, m)) ++ d.sent

structure Initial (d : Domain ι) : Prop where
  state : ∀ a, ∀ n ∈ (d.nodes a).node.neighbors, n.state ≠ .up
  sent : d.sent = []

/-- What an event brings and what passes the check with a key was sent by a node that has the
key. -/
def Unforged (H : Hmac) (d : Domain ι) : ι × IpcStep → Prop
  | (a, .data fd chunks _ _) =>
    let s := d.nodes a
    let m := Loop.recvAll s.buf chunks
    ∀ n, (findNeighborBySocket (s.getpeername fd) s.node.neighbors).bind
      (s.node.neighbors[·]?) = some n → ¬ n.key.isEmpty → Authentic H n m →
        (∃ c ∈ chunks, msgLength m ≤ c.length) →
      ∃ b, (d.nodes b).node.key = n.key ∧ (b, m.read 0 (msgLength m)) ∈ d.sent
  | _ => True

/-- The steps of a network that does not forge, at nodes that process what has just come in. -/
def Sound (H : Hmac) (d : Domain ι) (x : ι × IpcStep) : Prop :=
  (d.nodes x.1).Overwrites x.2 ∧ d.Unforged H x

section Run

variable (H : Hmac) (d : Domain ι)

/-- Before the end of the run a node with this key and this ID sent a message of this type. -/
def Said (l : List (ι × IpcStep)) (type : IpcMsgType) (key : IpcKey) (id : OpennopId) : Prop :=
  Trace.Earlier (fun l' x =>
    let s := (Trace.run (step H) d l').nodes x.1
    s.node.key = key ∧ s.node.id = id ∧ s.Says H x.2 type) l

/-- Before the end of the run a node with this key and this ID answered a HERE_I_AM. If the entry
for which the node accepted it has a key, a node with that key had said it, with the ID in the
message. -/
def Answered (l : List (ι × IpcStep)) (key : IpcKey) (id : OpennopId) : Prop :=
  Trace.Earlier (fun l' x =>
    let s := (Trace.run (step H) d l').nodes x.1
    s.node.key = key ∧ s.node.id = id ∧ ∃ n id' now, s.Accepts H x.2 n .hereIAm id' now ∧
      (¬ n.key.isEmpty → Said H d l' .hereIAm n.key id')) l

variable {H d}

theorem sameIdentity_run (l : List (ι × IpcStep)) (a : ι) :
    Loop.SameIdentity (d.nodes a) ((Trace.run (step H) d l).nodes a) := by
  induction l generalizing d with
  | nil => exact ⟨rfl, rfl⟩
  | cons x l ih =>
    rw [Trace.run_cons]
    refine Loop.SameIdentity.trans ?_ ih
    unfold step
    dsimp only
    by_cases hxa : a = x.1
    · subst hxa
      rw [Function.update_self]
      exact Loop.sameIdentity_step H (d.nodes x.1) x.2
    · rw [Function.update_of_ne hxa]
      exact ⟨rfl, rfl⟩

theorem said_of_sent (hsent : d.sent = []) {l : List (ι × IpcStep)} {b : ι} {m : List UInt8}
    (h : (b, m) ∈ (Trace.run (step H) d l).sent) :
    ∃ type, (type = .hereIAm ∨ type = .iSeeYou) ∧
      m = ipcSendMessage H (d.nodes b).node.key (d.nodes b).node.id type ∧
      Said H d l type (d.nodes b).node.key (d.nodes b).node.id := by
  have hcause : Trace.Earlier (fun l' x =>
      x.1 = b ∧ m ∈ ((Trace.run (step H) d l').nodes b).sends H x.2) l := by
    refine Trace.Earlier.of_step (Q := fun d : Domain ι => (b, m) ∈ d.sent) ?_ ?_
      (Trace.along_true d l) h
    · rw [hsent]
      exact List.not_mem_nil
    · intro l' x _ _ hmem
      rcases List.mem_append.1 hmem with hnew | hold
      · obtain ⟨m', hm', heq⟩ := List.mem_map.1 hnew
        cases heq
        exact .inr ⟨rfl, hm'⟩
      · exact .inl hold
  obtain ⟨l₁, x, l₂, rfl, rfl, hmem⟩ := hcause
  obtain ⟨type, htype, hm, htold⟩ := Loop.says_of_mem_sends hmem
  have hsame := sameIdentity_run (H := H) (d := d) l₁ x.1
  rw [hsame.key, hsame.id] at hm
  exact ⟨type, htype, hm, l₁, x, l₂, rfl, hsame.key, hsame.id, htold⟩

/-- What a node accepts for an entry with a key, a node with that key has said. -/
theorem said_of_accepts (hsent : d.sent = []) {l : List (ι × IpcStep)} {a : ι} {st : IpcStep}
    {n : Neighbor} {type : IpcMsgType} {id : OpennopId} {now : Int}
    (hsound : (Trace.run (step H) d l).Sound H (a, st))
    (hacc : ((Trace.run (step H) d l).nodes a).Accepts H st n type id now)
    (hkey : ¬ n.key.isEmpty) :
    Said H d l type n.key id := by
  obtain ⟨fd, chunks, fin, i, rfl, h⟩ := hacc
  obtain ⟨hover, hunforged⟩ := hsound
  obtain ⟨b, hb, hmem⟩ := hunforged n (by rw [h.found, Option.bind_some, h.entry]) hkey h.authentic
    (hover h.ipc)
  have hsame := sameIdentity_run (H := H) (d := d) l b
  obtain ⟨type', htype', hm, hsaid⟩ := said_of_sent hsent hmem
  rw [hsame.key] at hb
  rw [hb] at hm hsaid
  -- the message that was sent is the one at the front of the buffer
  have hholds : (Loop.recvAll ((Trace.run (step H) d l).nodes a).buf chunks).Holds 0
      (ipcSendMessage H n.key (d.nodes b).node.id type') := by
    rw [← hm]
    exact holds_read _ _ _
  obtain ⟨-, -, hbody, -⟩ := authentic_sent htype' hholds
  obtain ⟨rfl, rfl⟩ := message_unique hbody h.type h.id
  exact hsaid

/-- A node that answered had been asked. -/
theorem answered_of_said (hsent : d.sent = []) {l : List (ι × IpcStep)}
    (hl : Trace.Along (step H) (Sound H) d l) {key : IpcKey} {id : OpennopId}
    (h : Said H d l .iSeeYou key id) : Answered H d l key id := by
  obtain ⟨l₁, x, l₂, rfl, hkey, hid, n, id', now, hacc⟩ := h
  obtain ⟨-, hx, -⟩ := Trace.along_append.1 hl
  exact ⟨l₁, x, l₂, rfl, hkey, hid, n, id', now, hacc, said_of_accepts hsent hx hacc⟩

theorem shownUp_step {a : ι} {x : ι × IpcStep} {ip : Nat} {id : OpennopId} {timer : Int}
    (h : ShownUp ((d.step H x).nodes a).node.neighbors ip id timer) :
    ShownUp (d.nodes a).node.neighbors ip id timer ∨
      x.1 = a ∧ ∃ n type now, (d.nodes a).Accepts H x.2 n type id now ∧ n.neighborIP = ip ∧
        (type = .iSeeYou ∧ now = timer ∨
          type = .hereIAm ∧ ∃ id, ShownUp (d.nodes a).node.neighbors ip id timer) := by
  unfold step at h
  dsimp only at h
  by_cases hxa : a = x.1
  · subst hxa
    rw [Function.update_self] at h
    rcases Loop.shownUp_step h with hold | hacc
    · exact .inl hold
    · exact .inr ⟨rfl, hacc⟩
  · rw [Function.update_of_ne hxa] at h
    exact .inl h

end Run

/-- **A neighbor is UP only after a round trip.** When a node has an entry that is UP, then at the
time of its timer the node accepted an I_SEE_YOU for the address of the entry; and if the entry had
a key then, a node with that key and with the ID in that message had answered a HERE_I_AM before,
and was asked by one. The ID of the entry came in a message that was accepted for its address, and
if the entry had a key then, it is the ID of a node with that key. -/
theorem up_answered (H : Hmac) {d : Domain ι} (hd : d.Initial) {l : List (ι × IpcStep)}
    (hl : Trace.Along (step H) (Sound H) d l) {a : ι} {n : Neighbor}
    (hn : n ∈ ((Trace.run (step H) d l).nodes a).node.neighbors) (hup : n.state = .up) :
    Trace.Earlier (fun l' x => x.1 = a ∧ ∃ e id,
      ((Trace.run (step H) d l').nodes a).Accepts H x.2 e .iSeeYou id n.timer ∧
        e.neighborIP = n.neighborIP ∧ (¬ e.key.isEmpty → Answered H d l' e.key id)) l ∧
    Trace.Earlier (fun l' x => x.1 = a ∧ ∃ e type now,
      ((Trace.run (step H) d l').nodes a).Accepts H x.2 e type n.id now ∧
        e.neighborIP = n.neighborIP ∧
        (¬ e.key.isEmpty → ∃ b, (d.nodes b).node.key = e.key ∧ (d.nodes b).node.id = n.id)) l := by
  have hshown : ShownUp ((Trace.run (step H) d l).nodes a).node.neighbors n.neighborIP
      n.id n.timer :=
    ⟨n, hn, hup, rfl, rfl, rfl⟩
  have hnone : ∀ id, ¬ ShownUp (d.nodes a).node.neighbors n.neighborIP id n.timer := by
    rintro id ⟨e, he, hstate, -⟩
    exact hd.state a e he hstate
  constructor
  · refine Trace.Earlier.of_step
      (Q := fun d : Domain ι => ∃ id, ShownUp (d.nodes a).node.neighbors n.neighborIP id n.timer)
      (fun ⟨id, h⟩ => hnone id h) ?_ hl ⟨n.id, hshown⟩
    rintro l' ⟨b, st⟩ hl' hsound ⟨id, h⟩
    rcases shownUp_step h with hold | ⟨rfl, e, type, now, hacc, hip, ⟨rfl, rfl⟩ | ⟨-, hold⟩⟩
    · exact .inl ⟨id, hold⟩
    · exact .inr ⟨rfl, e, id, hacc, hip, fun hkey =>
        answered_of_said hd.sent hl' (said_of_accepts hd.sent hsound hacc hkey)⟩
    · exact .inl hold
  · refine Trace.Earlier.of_step
      (Q := fun d : Domain ι => ShownUp (d.nodes a).node.neighbors n.neighborIP n.id n.timer)
      (hnone n.id) ?_ hl hshown
    rintro l' ⟨b, st⟩ hl' hsound h
    rcases shownUp_step h with hold | ⟨rfl, e, type, now, hacc, hip, -⟩
    · exact .inl hold
    · refine .inr ⟨rfl, e, type, now, hacc, hip, fun hkey => ?_⟩
      obtain ⟨l₁, x, l₂, -, hxkey, hxid, -⟩ := said_of_accepts hd.sent hsound hacc hkey
      have hsame := sameIdentity_run (H := H) (d := d) l₁ x.1
      exact ⟨x.1, hsame.key.symm.trans hxkey, hsame.id.symm.trans hxid⟩

/-- Two nodes with the key `k`, each the other's neighbor. -/
def partners : Domain Bool where
  nodes b :=
    { buf := fun _ => 0
      node :=
        { key := oneKey
          id := if b then ⟨2, 2, 2, 2⟩ else ⟨1, 1, 1, 1⟩
          neighbors := [{ neighborIP := if b then 1 else 2, key := oneKey }] }
      sockets := fun _ => none
      closed := []
      log := [] }
  sent := []

/-- The first node connects and says hello, the second one answers. -/
def handshake : List (Bool × IpcStep) :=
  [(false, .hello 0 100 { connect := some 5 }), (true, .accept 6 1 100), (false, .hello 0 110 {}),
    (true, .data 6 [ipcSendMessage sumHmac oneKey ⟨1, 1, 1, 1⟩ .hereIAm] .again 110),
    (false, .data 5 [ipcSendMessage sumHmac oneKey ⟨2, 2, 2, 2⟩ .iSeeYou] .again 111)]

/-- The entry of the first node after the answer. -/
def answeredEntry : Neighbor :=
  { neighborIP := 2, state := .up, id := ⟨2, 2, 2, 2⟩, sock := 5, key := oneKey, hellotimer := 110,
    timer := 111 }

theorem sound_handshake : Trace.Along (step sumHmac) (Sound sumHmac) partners handshake := by
  have hunforged : ∀ (d : Domain Bool) (a b : Bool) (fd : Nat) (c : List UInt8) (now : Int),
      (∀ n ∈ (d.nodes a).node.neighbors, n.key = (d.nodes b).node.key) →
      (b, (Loop.recvAll (d.nodes a).buf [c]).read 0
      (msgLength (Loop.recvAll (d.nodes a).buf [c]))) ∈ d.sent →
      d.Unforged sumHmac (a, .data fd [c] .again now) := by
    intro d a b fd c now hkeys hsent n hn _ _ _
    obtain ⟨i, -, hi⟩ := Option.bind_eq_some_iff.1 hn
    exact ⟨b, (hkeys n (List.mem_of_getElem? hi)).symm, hsent⟩
  refine ⟨⟨trivial, trivial⟩, ⟨trivial, trivial⟩, ⟨trivial, trivial⟩, ⟨?_, ?_⟩, ⟨?_, ?_⟩, trivial⟩
  · exact fun _ => ⟨_, List.mem_singleton_self _, by decide +kernel⟩
  · exact hunforged _ true false 6 _ 110 (by decide +kernel) (by decide +kernel)
  · exact fun _ => ⟨_, List.mem_singleton_self _, by decide +kernel⟩
  · exact hunforged _ false true 5 _ 111 (by decide +kernel) (by decide +kernel)

theorem up_answered_handshake :
    ((Trace.run (step sumHmac) partners handshake).nodes false).node.neighbors = [answeredEntry] ∧
      Trace.Earlier (fun l' x => x.1 = false ∧ ∃ e id,
        ((Trace.run (step sumHmac) partners l').nodes false).Accepts sumHmac x.2 e .iSeeYou id 111 ∧
          e.neighborIP = 2 ∧
          (¬ e.key.isEmpty → Answered sumHmac partners l' e.key id)) handshake := by
  have hentry : ((Trace.run (step sumHmac) partners handshake).nodes false).node.neighbors =
      [answeredEntry] := by
    decide +kernel
  have hinitial : partners.Initial := by
    refine ⟨?_, rfl⟩
    rintro a n hn
    rw [List.mem_singleton.1 hn]
    exact nofun
  have hmem : answeredEntry ∈
      ((Trace.run (step sumHmac) partners handshake).nodes false).node.neighbors := by
    rw [hentry]
    exact List.mem_singleton_self answeredEntry
  exact ⟨hentry, (up_answered sumHmac hinitial sound_handshake hmem rfl).1⟩

end Domain

end Opennop
