import Mathlib.Data.List.Nodup
import Opennop.Ipc.Loop

/-!
# The socket of a neighbor

`Owns` says that every entry with a socket holds an open descriptor whose peer has the address of
the entry. What a step does to it depends on the addresses and sockets of the entries (`ledger`) and
on the peers of the descriptors (`peerOf`) only. `hello_neighbors` and `ipc_check_neighbor` keep
`Owns`, for they change an entry together with its descriptor; `epoll_handler` closes descriptors
without looking at the entries, and keeps it exactly when no entry has the descriptor
(`step_owns_iff`).
-/

namespace Opennop

namespace Loop

/-! ## Addresses, sockets and peers -/

def ledger (s : Loop) : List (Nat × Nat) := s.node.neighbors.map fun n => (n.neighborIP, n.sock)

def peerOf (s : Loop) (fd : Nat) : Option Nat := (s.sockets fd).map Socket.peer

/-- Every entry with a socket holds an open descriptor whose peer has its address. -/
def Owns (s : Loop) : Prop :=
  ∀ n ∈ s.node.neighbors, n.sock ≠ 0 → ∃ k, s.sockets n.sock = some k ∧ k.peer = n.neighborIP

def Distinct (s : Loop) : Prop := (s.node.neighbors.map Neighbor.neighborIP).Nodup

variable {s s' : Loop}

theorem owns_iff : s.Owns ↔ ∀ e ∈ s.ledger, e.2 ≠ 0 → s.peerOf e.2 = some e.1 := by
  unfold Owns ledger peerOf
  simp [Option.map_eq_some_iff]

theorem distinct_iff : s.Distinct ↔ (s.ledger.map Prod.fst).Nodup := by
  unfold Distinct ledger
  rw [List.map_map]
  rfl

theorem Owns.congr (h : s.Owns) (hl : s'.ledger = s.ledger)
    (hp : ∀ fd, s'.peerOf fd = s.peerOf fd) :
    s'.Owns := by
  rw [owns_iff] at h ⊢
  rw [hl]
  intro e he h0
  rw [hp]
  exact h e he h0

theorem Distinct.congr (h : s.Distinct) (hl : s'.ledger = s.ledger) : s'.Distinct := by
  rw [distinct_iff] at h ⊢
  rwa [hl]

@[simp] theorem peerOf_setSocket (s : Loop) (fd : Nat) (k : Option Socket) (fd' : Nat) :
    (s.setSocket fd k).peerOf fd' = if fd' = fd then k.map Socket.peer else s.peerOf fd' := by
  unfold peerOf setSocket
  by_cases h : fd' = fd
  · simp [h]
  · simp [h]

@[simp] theorem ledger_setSocket (s : Loop) (fd : Nat) (k : Option Socket) :
    (s.setSocket fd k).ledger = s.ledger := rfl

@[simp] theorem peerOf_setNeighbors (s : Loop) (l : List Neighbor) (fd : Nat) :
    (s.setNeighbors l).peerOf fd = s.peerOf fd := rfl

theorem ledger_close (s : Loop) (fd : Nat) : (s.close fd).ledger = s.ledger := by
  unfold close
  split <;> rfl

theorem peerOf_close (s : Loop) (fd fd' : Nat) :
    (s.close fd).peerOf fd' = if fd' = fd then none else s.peerOf fd' := by
  unfold close
  split
  · exact peerOf_setSocket s fd none fd'
  · rename_i hnone
    split
    · subst fd'
      simp [peerOf, hnone]
    · rfl

theorem ledger_modifyNeighbor {f : Neighbor → Neighbor} (i : Nat)
    (hf : ∀ n, (f n).neighborIP = n.neighborIP ∧ (f n).sock = n.sock) :
    (s.modifyNeighbor i f).ledger = s.ledger :=
  map_modify_eq (fun n => by rw [(hf n).1, (hf n).2]) i

@[simp] theorem peerOf_modifyNeighbor (s : Loop) (i : Nat) (f : Neighbor → Neighbor) (fd : Nat) :
    (s.modifyNeighbor i f).peerOf fd = s.peerOf fd := rfl

/-! ## One entry changes with its descriptor -/

theorem mem_ledger_modify {f : Neighbor → Neighbor} {i sock : Nat}
    (hf : ∀ n, (f n).neighborIP = n.neighborIP ∧ (f n).sock = sock) {e : Nat × Nat}
    (he : e ∈ (s.modifyNeighbor i f).ledger) :
    (∃ fd, s.ledger[i]? = some (e.1, fd) ∧ e.2 = sock) ∨ ∃ j, j ≠ i ∧ s.ledger[j]? = some e := by
  obtain ⟨n', hn', rfl⟩ := List.mem_map.1 he
  obtain ⟨j, hj⟩ := List.mem_iff_getElem?.1 hn'
  rw [modifyNeighbor, setNeighbors, List.getElem?_modify] at hj
  obtain ⟨n, hn, rfl⟩ := Option.map_eq_some_iff.1 hj
  have hledger : s.ledger[j]? = some (n.neighborIP, n.sock) := by
    rw [ledger, List.getElem?_map, hn, Option.map_some]
  by_cases hij : i = j
  · subst hij
    rw [if_pos rfl, (hf n).1, (hf n).2]
    exact .inl ⟨n.sock, hledger, rfl⟩
  · rw [if_neg hij]
    exact .inr ⟨j, fun h => hij h.symm, hledger⟩

theorem Owns.at (h : s.Owns) {j : Nat} {e : Nat × Nat} (hj : s.ledger[j]? = some e)
    (h0 : e.2 ≠ 0) : s.peerOf e.2 = some e.1 :=
  owns_iff.1 h e (List.mem_of_getElem? hj) h0

theorem Distinct.position (h : s.Distinct) {i j : Nat} {e e' : Nat × Nat}
    (hi : s.ledger[i]? = some e) (hj : s.ledger[j]? = some e') (heq : e'.1 = e.1) : j = i := by
  have hi' : (s.ledger.map Prod.fst)[i]? = some e.1 := by
    rw [List.getElem?_map, hi, Option.map_some]
  have hj' : (s.ledger.map Prod.fst)[j]? = some e.1 := by
    rw [List.getElem?_map, hj, Option.map_some, heq]
  obtain ⟨hlt, -⟩ := List.getElem?_eq_some_iff.1 hj'
  exact (List.getElem?_inj hlt (distinct_iff.1 h)).1 (hj'.trans hi'.symm)

theorem Distinct.modify (h : s.Distinct) {f : Neighbor → Neighbor} (i : Nat)
    (hf : ∀ n, (f n).neighborIP = n.neighborIP) : (s.modifyNeighbor i f).Distinct := by
  unfold Distinct modifyNeighbor setNeighbors
  rw [map_modify_eq hf]
  exact h

/-- The invariant: sockets are owned by entries with distinct addresses. -/
structure Owned (s : Loop) : Prop where
  owns : s.Owns
  distinct : s.Distinct

theorem Owned.assign (h : s.Owned) {f : Neighbor → Neighbor} {i ip old fd : Nat} {k : Socket}
    (hi : s.ledger[i]? = some (ip, old)) (hfree : s.sockets fd = none) (hk : k.peer = ip)
    (hf : ∀ n, (f n).neighborIP = n.neighborIP ∧ (f n).sock = fd) :
    ((s.modifyNeighbor i f).setSocket fd (some k)).Owned := by
  refine ⟨owns_iff.2 fun e he h0 => ?_, (h.distinct.modify i fun n => (hf n).1).congr rfl⟩
  rw [peerOf_setSocket]
  rcases mem_ledger_modify hf he with ⟨fd', hfd', hsock⟩ | ⟨j, hj, he⟩
  · rw [hi, Option.some.injEq] at hfd'
    rw [if_pos hsock, Option.map_some, hk, ← congrArg Prod.fst hfd']
  · have hpeer := h.owns.at he h0
    by_cases hfd : e.2 = fd
    · rw [hfd, peerOf, hfree] at hpeer
      cases hpeer
    · rw [if_neg hfd]
      exact hpeer

/-- The descriptor of an entry is closed and the entry forgets it. No other entry has it, for its
address would be the same. -/
theorem Owned.release (h : s.Owned) {f : Neighbor → Neighbor} {i ip fd : Nat}
    (hi : s.ledger[i]? = some (ip, fd)) (h0 : fd ≠ 0)
    (hf : ∀ n, (f n).neighborIP = n.neighborIP ∧ (f n).sock = 0) :
    ((s.modifyNeighbor i f).close fd).Owned := by
  refine ⟨owns_iff.2 fun e he he0 => ?_,
    (h.distinct.modify i fun n => (hf n).1).congr (ledger_close _ _)⟩
  rw [ledger_close] at he
  rw [peerOf_close]
  rcases mem_ledger_modify hf he with ⟨fd', hfd', hsock⟩ | ⟨j, hj, he⟩
  · exact absurd hsock he0
  · have hpeer := h.owns.at he he0
    by_cases hfd : e.2 = fd
    · have hown := h.owns.at hi h0
      rw [hfd] at hpeer
      rw [hpeer, Option.some.injEq] at hown
      exact absurd (h.distinct.position hi he hown) hj
    · rw [if_neg hfd]
      exact hpeer

/-! ## The steps -/

/-- A change that `Owned` does not see. -/
structure Kept (s s' : Loop) : Prop where
  ledger : s'.ledger = s.ledger
  peers : ∀ fd, s'.peerOf fd = s.peerOf fd

theorem Kept.trans {s'' : Loop} (h : Kept s s') (h' : Kept s' s'') : Kept s s'' :=
  ⟨h'.ledger.trans h.ledger, fun fd => (h'.peers fd).trans (h.peers fd)⟩

theorem Owned.kept (h : s.Owned) (hk : Kept s s') : s'.Owned :=
  ⟨h.owns.congr hk.ledger hk.peers, h.distinct.congr hk.ledger⟩

theorem kept_modify {f : Neighbor → Neighbor} (i : Nat)
    (hf : ∀ n, (f n).neighborIP = n.neighborIP ∧ (f n).sock = n.sock) :
    Kept s (s.modifyNeighbor i f) :=
  ⟨ledger_modifyNeighbor i hf, fun _ => rfl⟩

theorem kept_setState (now : Int) (peer : Option Nat) (state : NeighborState) :
    Kept s (s.setNeighbors (ipcSetNeighborState now peer state s.node.neighbors)) :=
  ⟨map_updateNeighbor fun _ => rfl, fun _ => rfl⟩

theorem ledger_getElem? {i : Nat} {n : Neighbor} (hi : s.node.neighbors[i]? = some n) :
    s.ledger[i]? = some (n.neighborIP, n.sock) := by
  rw [ledger, List.getElem?_map, hi, Option.map_some]

/-- A hello leaves the sockets alone, or gives one up together with its entry. -/
theorem Owned.sayHello (h : s.Owned) {i : Nat} {n : Neighbor} (hi : s.node.neighbors[i]? = some n)
    (h0 : n.sock ≠ 0) (now : Int) (answer : HelloAnswer) : (s.sayHello i n now answer).Owned := by
  have hledger := ledger_getElem? hi
  unfold Loop.sayHello
  dsimp only
  generalize hs' : (if n.state = .up ∧ now - n.timer > 30 then _ else _ : Loop) = s'
  have htimer : Kept s (s.modifyNeighbor i fun n => { n with hellotimer := now }) :=
    kept_modify i fun _ => ⟨rfl, rfl⟩
  have hkept : Kept s s' := by
    rw [← hs']
    split
    · exact htimer.trans (kept_setState _ _ _)
    · exact htimer
  rw [← hkept.ledger] at hledger
  split
  · exact (h.kept hkept).release hledger h0 fun _ => ⟨rfl, rfl⟩
  · exact h.kept hkept

theorem Owned.helloNeighbor (h : s.Owned) (i : Nat) (now : Int) (answer : HelloAnswer)
    (ha : ∀ fd, answer.connect = some fd → s.sockets fd = none) :
    (s.helloNeighbor i now answer).Owned := by
  unfold Loop.helloNeighbor
  cases hi : s.node.neighbors[i]? with
  | none => exact h
  | some n =>
    dsimp only
    split
    · split
      · cases hc : answer.connect with
        | none => exact h.kept (kept_modify i fun _ => ⟨rfl, rfl⟩)
        | some fd => exact h.assign (ledger_getElem? hi) (ha fd hc) rfl fun _ => ⟨rfl, rfl⟩
      · exact h.kept (kept_modify i fun _ => ⟨rfl, rfl⟩)
    · split
      · split
        · exact h.sayHello hi ‹_› now answer
        · exact h
      · exact h

theorem Owned.acceptClient (h : s.Owned) {fd : Nat} (hfree : s.sockets fd = none) (peer : Nat)
    (now : Int) : (s.acceptClient fd peer now).Owned := by
  unfold Loop.acceptClient
  cases hi : findNeighborBySocket (some peer) s.node.neighbors with
  | none => exact ⟨h.owns, h.distinct⟩
  | some i =>
    obtain ⟨hlt, hpeer, -⟩ := List.findIdx?_eq_some_iff_getElem.1 hi
    have hledger := ledger_getElem? (List.getElem?_eq_getElem hlt)
    rw [eq_of_beq hpeer] at hledger
    exact h.assign hledger hfree rfl fun _ => ⟨rfl, rfl⟩

theorem kept_receive (H : Hmac) (s : Loop) (fd : Nat) (chunks : List (List UInt8)) (now : Int) :
    Kept s (s.receive H fd chunks now) := by
  refine ⟨ipcHandler_map (fun _ _ => rfl) fun _ _ _ => rfl, fun fd' => ?_⟩
  have hsockets : (s.receive H fd chunks now).sockets = Function.update s.sockets fd
      ((s.sockets fd).map fun k => Socket.note k chunks.flatten
        (frontMessage (recvAll s.buf chunks))) :=
    rfl
  unfold peerOf
  rw [hsockets]
  by_cases hfd : fd' = fd
  · rw [hfd, Function.update_self, Option.map_map]
    rfl
  · rw [Function.update_of_ne hfd]

/-- A close by `epoll_handler` keeps the sockets owned exactly when no entry has the descriptor. -/
theorem Owned.close_iff (h : s.Owned) (fd : Nat) :
    (s.close fd).Owned ↔ ∀ e ∈ s.ledger, e.2 = fd → fd = 0 := by
  constructor
  · intro h' e he hfd
    by_contra h0
    have hpeer := owns_iff.1 h'.owns e (by rw [ledger_close]; exact he) (by rw [hfd]; exact h0)
    rw [peerOf_close, if_pos hfd] at hpeer
    cases hpeer
  · intro hno
    refine ⟨owns_iff.2 fun e he he0 => ?_, h.distinct.congr (ledger_close s fd)⟩
    rw [ledger_close] at he
    rw [peerOf_close, if_neg fun hfd => he0 (hfd.trans (hno e he hfd))]
    exact owns_iff.1 h.owns e he he0

/-! ### The addresses -/

def ips (s : Loop) : List Nat := s.node.neighbors.map Neighbor.neighborIP

theorem ips_modify {f : Neighbor → Neighbor} (i : Nat) (hf : ∀ n, (f n).neighborIP = n.neighborIP) :
    (s.modifyNeighbor i f).ips = s.ips := map_modify_eq hf i

theorem ips_close (s : Loop) (fd : Nat) : (s.close fd).ips = s.ips := by
  unfold close
  split <;> rfl

theorem ips_sayHello (s : Loop) (i : Nat) (n : Neighbor) (now : Int) (answer : HelloAnswer) :
    (s.sayHello i n now answer).ips = s.ips := by
  unfold sayHello
  dsimp only
  generalize hs' : (if n.state = .up ∧ now - n.timer > 30 then _ else _ : Loop) = s'
  have htimer : (s.modifyNeighbor i fun n => { n with hellotimer := now }).ips = s.ips :=
    ips_modify i fun _ => rfl
  have hips : s'.ips = s.ips := by
    rw [← hs', ← htimer]
    split
    · exact map_updateNeighbor fun _ => rfl
    · rfl
  split
  · rw [ips_close, ← hips]
    exact ips_modify i fun _ => rfl
  · exact hips

theorem ips_helloNeighbor (s : Loop) (i : Nat) (now : Int) (answer : HelloAnswer) :
    (s.helloNeighbor i now answer).ips = s.ips := by
  unfold helloNeighbor
  split
  · rfl
  · split
    · split
      · split <;> exact ips_modify i fun _ => rfl
      · exact ips_modify i fun _ => rfl
    · split
      · split
        · exact ips_sayHello s i _ now answer
        · rfl
      · rfl

theorem ips_acceptClient (s : Loop) (fd peer : Nat) (now : Int) :
    (s.acceptClient fd peer now).ips = s.ips := by
  unfold acceptClient
  split
  · exact ips_modify _ fun _ => rfl
  · rfl

theorem ips_receive (H : Hmac) (s : Loop) (fd : Nat) (chunks : List (List UInt8)) (now : Int) :
    (s.receive H fd chunks now).ips = s.ips :=
  ipcHandler_map (fun _ _ => rfl) fun _ _ _ => rfl

theorem Distinct.addUpdateNeighbor (h : s.Distinct) (ip : Nat) (key : IpcKey) (now : Int) :
    (s.addUpdateNeighbor ip key now).Distinct := by
  unfold Loop.addUpdateNeighbor
  cases hi : findNeighborByAddr s.node.neighbors ip with
  | some i => exact h.modify i fun _ => rfl
  | none =>
    unfold Distinct setNeighbors
    rw [List.map_append, List.map_singleton, ← List.concat_eq_append, List.nodup_concat]
    refine ⟨fun hmem => ?_, h⟩
    obtain ⟨n, hn, hip⟩ := List.mem_map.1 hmem
    have hne := List.findIdx?_eq_none_iff.1 hi n hn
    simp [hip] at hne

theorem Distinct.delNeighbor (h : s.Distinct) (ip : Nat) : (s.delNeighbor ip).Distinct := by
  unfold Loop.delNeighbor
  split
  · unfold Distinct setNeighbors
    refine h.sublist ?_
    exact (List.eraseIdx_sublist _ _).map _
  · exact h

theorem Distinct.step (h : s.Distinct) (H : Hmac) (st : IpcStep) : (s.step H st).Distinct := by
  have hips : ∀ {s' : Loop}, s'.ips = s.ips → s'.Distinct := by
    intro s' heq
    unfold Distinct
    rw [← ips, heq]
    exact h
  cases st with
  | hello i now answer => exact hips (ips_helloNeighbor s i now answer)
  | accept fd peer now => exact hips (ips_acceptClient s fd peer now)
  | data fd chunks fin now =>
    refine hips ?_
    unfold Loop.step readData
    dsimp only
    split
    · exact ips_receive H s fd chunks now
    · rw [ips_close, ips_receive]
  | hangup fd => exact hips (ips_close s fd)
  | reset fd => exact h
  | addUpdate ip key now => exact h.addUpdateNeighbor ip key now
  | delete ip => exact h.delNeighbor ip

/-! ### The sockets -/

theorem Owned.addUpdateNeighbor (h : s.Owned) (ip : Nat) (key : IpcKey) (now : Int) :
    (s.addUpdateNeighbor ip key now).Owned := by
  have hdistinct := h.distinct.addUpdateNeighbor ip key now
  unfold Loop.addUpdateNeighbor at hdistinct ⊢
  cases hi : findNeighborByAddr s.node.neighbors ip with
  | some i => exact h.kept (kept_modify i fun _ => ⟨rfl, rfl⟩)
  | none =>
    rw [hi] at hdistinct
    refine ⟨fun n hn h0 => ?_, hdistinct⟩
    rcases List.mem_append.1 hn with hn | hn
    · exact h.owns n hn h0
    · rw [List.mem_singleton.1 hn] at h0
      exact absurd rfl h0

theorem Owned.delNeighbor (h : s.Owned) (ip : Nat) : (s.delNeighbor ip).Owned := by
  refine ⟨?_, h.distinct.delNeighbor ip⟩
  unfold Loop.delNeighbor
  split
  · exact fun n hn h0 => h.owns n (List.mem_of_mem_eraseIdx hn) h0
  · exact h.owns

/-- The descriptor that `epoll_handler` closes in a step. -/
def closes : IpcStep → Option Nat
  | .data fd _ fin _ => if fin = .again then none else some fd
  | .hangup fd => some fd
  | _ => none

/-- The step closes a descriptor that is recorded as the socket of an entry. -/
def ClosesRecorded (s : Loop) (st : IpcStep) : Prop :=
  ∃ fd n, closes st = some fd ∧ fd ≠ 0 ∧ n ∈ s.node.neighbors ∧ n.sock = fd

theorem not_closesRecorded_iff {st : IpcStep} {fd : Nat} (h : closes st = some fd) :
    ¬ ClosesRecorded s st ↔ ∀ e ∈ s.ledger, e.2 = fd → fd = 0 := by
  unfold ClosesRecorded ledger
  rw [h]
  constructor
  · intro hno e he hfd
    obtain ⟨n, hn, rfl⟩ := List.mem_map.1 he
    by_contra h0
    exact hno ⟨fd, n, rfl, h0, hn, hfd⟩
  · rintro hall ⟨fd', n, hfd', h0, hn, hsock⟩
    cases hfd'
    exact h0 (hall _ (List.mem_map_of_mem hn) hsock)

theorem not_closesRecorded_of_none {st : IpcStep} (h : closes st = none) :
    ¬ ClosesRecorded s st := by
  rintro ⟨fd, n, hfd, -⟩
  rw [h] at hfd
  cases hfd

/-- **One step** keeps the sockets owned exactly when it closes no recorded one. -/
theorem Owned.step_iff (h : s.Owned) (H : Hmac) {st : IpcStep} (ha : s.Allowed st) :
    (s.step H st).Owned ↔ ¬ ClosesRecorded s st := by
  have hkeeps : closes st = none → (s.step H st).Owned →
      ((s.step H st).Owned ↔ ¬ ClosesRecorded s st) := fun hc ho =>
    ⟨fun _ => not_closesRecorded_of_none hc, fun _ => ho⟩
  cases st with
  | hello i now answer => exact hkeeps rfl (h.helloNeighbor i now answer ha)
  | accept fd peer now => exact hkeeps rfl (h.acceptClient ha peer now)
  | data fd chunks fin now =>
    have hkept := kept_receive H s fd chunks now
    by_cases hfin : fin = .again
    · refine hkeeps (if_pos hfin) ?_
      unfold Loop.step readData
      dsimp only
      rw [if_pos hfin]
      exact h.kept hkept
    · have hcloses : closes (.data fd chunks fin now) = some fd := if_neg hfin
      rw [not_closesRecorded_iff hcloses, ← hkept.ledger, ← (h.kept hkept).close_iff]
      unfold Loop.step readData
      dsimp only
      rw [if_neg hfin]
  | hangup fd => rw [not_closesRecorded_iff rfl, ← h.close_iff]; rfl
  | reset fd =>
    refine hkeeps rfl (h.kept ⟨rfl, fun fd' => ?_⟩)
    unfold Loop.step
    dsimp only
    rw [peerOf_setSocket, Option.map_map]
    split
    · subst fd'
      rfl
    · rfl
  | addUpdate ip key now => exact hkeeps rfl (h.addUpdateNeighbor ip key now)
  | delete ip => exact hkeeps rfl (h.delNeighbor ip)

/-! ## The timeout of a neighbor -/

theorem node_close (s : Loop) (fd : Nat) : (s.close fd).node = s.node := by
  unfold close
  split <;> rfl

/-- A thread with the neighbors `10.0.0.2` and `10.0.0.3`, both without a key. -/
def twoNeighbors : Loop where
  buf := fun _ => 0
  node :=
    ⟨⟨[], by decide, by simp⟩, ⟨1, 1, 1, 1⟩,
      [{ neighborIP := 33554442 }, { neighborIP := 50331658 }]⟩
  sockets := fun _ => none
  closed := []
  log := []

theorem initial_twoNeighbors : twoNeighbors.Initial :=
  ⟨rfl, by decide, by decide, fun _ => rfl, rfl, rfl⟩

/-- A connection from the address `peer` on descriptor 5, and an `I_SEE_YOU` on it. -/
def greeting (peer : Nat) (now : Int) : List IpcStep :=
  [.accept 5 peer now,
    .data 5 [headerBytes 16 0 ++ bodyBytes .iSeeYou ⟨2, 2, 2, 2⟩] .again now]

end Loop

end Opennop
