import Opennop.Ipc.Owned

/-!
# What makes a neighbor trusted (`opennopd/subsystems/ipc.c`, `opennopd/sockets.c`)

`verify_neighbor_in_domain` trusts the ID of every neighbor in the state UP. Here is what brings an
entry there: a step that accepts an I_SEE_YOU for it, and nothing else. Accepting depends on the
buffer, not on what has arrived. `check_hmac_sha256` puts the HMAC it computes in the place of the
one it refuses, and `epoll_handler` hands the same buffer to the callback again when the peer closes
the connection; so a message with a wrong HMAC is refused once and accepted then.
-/

namespace Opennop

open Mem

/-! ## Accepted messages -/

/-- The handler accepts the buffer as a message of this type with this ID, for the entry `n` at the
position `i`. -/
structure Accepted (H : Hmac) (node : IpcNode) (peer : Option Nat) (m : Mem) (i : Nat)
    (n : Neighbor) (type : IpcMsgType) (id : OpennopId) : Prop where
  found : findNeighborBySocket peer node.neighbors = some i
  entry : node.neighbors[i]? = some n
  ipc : m 0 = msgTypeIpc
  authentic : Authentic H n m
  known : type = .hereIAm ∨ type = .iSeeYou
  type : m.le16 n.key.messages = type.toNat
  id : OpennopId.load m (n.key.messages + 4) = id

section Handler

variable {H : Hmac} {now : Int} {node : IpcNode} {peer : Option Nat} {m : Mem}

theorem eight_le_messages (key : IpcKey) : 8 ≤ key.messages := by
  unfold IpcKey.messages
  split <;> omega

theorem getHeaderData_snd {key : IpcKey} (h : msgSecurity m = key.security) :
    (getHeaderData m).2 = key.messages := by
  unfold getHeaderData
  rw [h, IpcKey.security, IpcKey.messages]
  by_cases hkey : key.isEmpty
  · rw [if_pos hkey, if_pos hkey]
    rfl
  · rw [if_neg hkey, if_neg hkey]
    rfl

theorem getHeaderData_out {a : Nat} (ha : 8 ≤ a) : (getHeaderData m).1 a = m a := by
  unfold getHeaderData
  split
  · exact setLe16_out m _ (by omega)
  · rfl

theorem ipcHandler_unknown
    (h : (findNeighborBySocket peer node.neighbors).bind (node.neighbors[·]?) = none) :
    (ipcHandler H now node peer m).neighbors = node.neighbors ∧
      (ipcHandler H now node peer m).replies = [] := by
  unfold ipcHandler
  split
  · rw [checkSecurity, h]
    exact ⟨rfl, rfl⟩
  · exact ⟨rfl, rfl⟩

/-- An authentic buffer is processed, with the type and the ID that it came in with. -/
theorem ipcHandler_processes (now : Int) {i : Nat} {n : Neighbor}
    (hi : findNeighborBySocket peer node.neighbors = some i) (hn : node.neighbors[i]? = some n)
    (h0 : m 0 = msgTypeIpc) (ha : Authentic H n m) :
    ∃ buf, ipcHandler H now node peer m =
      if m.le16 n.key.messages = IpcMsgType.hereIAm.toNat then
        ⟨0, buf, updateNeighbor peer (saveId (OpennopId.load m (n.key.messages + 4)))
          node.neighbors, [ipcSendMessage H node.key node.id .iSeeYou]⟩
      else if m.le16 n.key.messages = IpcMsgType.iSeeYou.toNat then
        ⟨0, buf, ipcSetNeighborState now peer .up
          (updateNeighbor peer (saveId (OpennopId.load m (n.key.messages + 4))) node.neighbors), []⟩
      else refuse node 0 buf := by
  obtain ⟨m', heq, hsame⟩ := ipcHandler_authentic hi hn now h0 ha
  have hoff : (getHeaderData m').2 = n.key.messages :=
    getHeaderData_snd ((hsame 6 (by omega)).trans ha.1)
  -- from the messages on, the buffer that is processed is the one that came in
  have hout : ∀ a, n.key.messages ≤ a → (getHeaderData m').1 a = m a := by
    intro a hle
    rw [getHeaderData_out (Nat.le_trans (eight_le_messages n.key) hle), hsame a (.inr hle)]
  have htype : (getHeaderData m').1.le16 n.key.messages = m.le16 n.key.messages :=
    le16_congr fun a hle _ => hout a hle
  have hid : OpennopId.load (getHeaderData m').1 (n.key.messages + 4) =
      OpennopId.load m (n.key.messages + 4) := by
    unfold OpennopId.load
    rw [hout _ (by omega), hout _ (by omega), hout _ (by omega), hout _ (by omega)]
  refine ⟨(getHeaderData m').1, ?_⟩
  rw [heq]
  unfold processMessage
  dsimp only
  rw [hoff, htype, hid]
  rfl

/-- An accepted buffer is delivered to the entry of the peer, and answered if it is a HERE_I_AM. -/
theorem Accepted.delivers {i : Nat} {n : Neighbor} {type : IpcMsgType} {id : OpennopId}
    (h : Accepted H node peer m i n type id) (now : Int) :
    (ipcHandler H now node peer m).neighbors = node.neighbors.modify i (deliver now id type) ∧
      (ipcHandler H now node peer m).replies =
        if type = .hereIAm then [ipcSendMessage H node.key node.id .iSeeYou] else [] := by
  obtain ⟨buf, heq⟩ := ipcHandler_processes now h.found h.entry h.ipc h.authentic
  rw [heq, h.type, h.id]
  rcases h.known with rfl | rfl
  · rw [if_pos rfl, if_pos rfl]
    exact ⟨updateNeighbor_eq h.found, rfl⟩
  · rw [if_neg (by decide), if_pos rfl, if_neg (by decide)]
    refine ⟨?_, rfl⟩
    dsimp only
    rw [updateNeighbor_eq h.found, ipcSetNeighborState, updateNeighbor_eq, List.modify_modify_eq]
    · rfl
    · rw [findNeighborBySocket_modify (f := saveId id) (fun _ => rfl), h.found]

/-- **What a buffer can do.** It is accepted, or it changes nothing and is not answered. -/
theorem ipcHandler_cases (H : Hmac) (now : Int) (node : IpcNode) (peer : Option Nat) (m : Mem) :
    (∃ i n type id, Accepted H node peer m i n type id) ∨
    (ipcHandler H now node peer m).neighbors = node.neighbors ∧
      (ipcHandler H now node peer m).replies = [] := by
  cases hentry : (findNeighborBySocket peer node.neighbors).bind (node.neighbors[·]?) with
  | none => exact .inr (ipcHandler_unknown hentry)
  | some n =>
    obtain ⟨i, hi, hn⟩ := Option.bind_eq_some_iff.1 hentry
    by_cases h0 : m 0 = msgTypeIpc
    · by_cases ha : Authentic H n m
      · by_cases hhere : m.le16 n.key.messages = IpcMsgType.hereIAm.toNat
        · exact .inl ⟨i, n, .hereIAm, _, hi, hn, h0, ha, .inl rfl, hhere, rfl⟩
        · by_cases hsee : m.le16 n.key.messages = IpcMsgType.iSeeYou.toNat
          · exact .inl ⟨i, n, .iSeeYou, _, hi, hn, h0, ha, .inr rfl, hsee, rfl⟩
          · right
            obtain ⟨buf, heq⟩ := ipcHandler_processes now hi hn h0 ha
            rw [heq, if_neg hhere, if_neg hsee]
            exact ⟨rfl, rfl⟩
      · exact .inr (ipcHandler_refuses hi hn ha)
    · right
      unfold ipcHandler
      rw [if_neg h0]
      exact ⟨rfl, rfl⟩

end Handler

/-! ## Entries that are UP -/

/-- An entry with this address is UP with this ID, and its timer was set at this time. -/
def ShownUp (neighbors : List Neighbor) (ip : Nat) (id : OpennopId) (timer : Int) : Prop :=
  ∃ n ∈ neighbors, n.state = .up ∧ n.neighborIP = ip ∧ n.id = id ∧ n.timer = timer

/-- If the entry is UP after a change, it was so before and shows the same. -/
def Unraised (n n' : Neighbor) : Prop :=
  n'.state = .up →
    n.state = .up ∧ n'.neighborIP = n.neighborIP ∧ n'.id = n.id ∧ n'.timer = n.timer

theorem Unraised.of_ne {n n' : Neighbor} (h : n'.state ≠ .up) : Unraised n n' :=
  fun hup => absurd hup h

section ShownUp

variable {neighbors : List Neighbor} {ip : Nat} {id : OpennopId} {timer : Int}
  {f : Neighbor → Neighbor}

theorem mem_modify {n' : Neighbor} {i : Nat} (h : n' ∈ neighbors.modify i f) :
    n' ∈ neighbors ∨ ∃ n, neighbors[i]? = some n ∧ n' = f n := by
  obtain ⟨j, hj⟩ := List.mem_iff_getElem?.1 h
  rw [List.getElem?_modify] at hj
  by_cases hij : i = j
  · subst hij
    obtain ⟨n, hn, hfn⟩ := Option.map_eq_some_iff.1 hj
    rw [if_pos rfl] at hfn
    exact .inr ⟨n, hn, hfn.symm⟩
  · simp only [hij, if_false, Option.map_eq_map, Option.map_id'] at hj
    exact .inl (List.mem_iff_getElem?.2 ⟨j, hj⟩)

theorem ShownUp.of_modify {i : Nat} (h : ShownUp (neighbors.modify i f) ip id timer)
    (hf : ∀ n, Unraised n (f n)) : ShownUp neighbors ip id timer := by
  obtain ⟨n', hn', hup, hip, hid, ht⟩ := h
  rcases mem_modify hn' with hmem | ⟨n, hn, rfl⟩
  · exact ⟨n', hmem, hup, hip, hid, ht⟩
  · obtain ⟨hup', hip', hid', ht'⟩ := hf n hup
    exact ⟨n, List.mem_of_getElem? hn, hup', hip'.symm.trans hip, hid'.symm.trans hid,
      ht'.symm.trans ht⟩

theorem ShownUp.of_updateNeighbor {peer : Option Nat}
    (h : ShownUp (updateNeighbor peer f neighbors) ip id timer) (hf : ∀ n, Unraised n (f n)) :
    ShownUp neighbors ip id timer := by
  unfold updateNeighbor at h
  split at h
  · exact h.of_modify hf
  · exact h

theorem ShownUp.mono {neighbors' : List Neighbor} (h : ShownUp neighbors' ip id timer)
    (hsub : ∀ n ∈ neighbors', n.state = .up → n ∈ neighbors) : ShownUp neighbors ip id timer := by
  obtain ⟨n, hn, hup, hrest⟩ := h
  exact ⟨n, hsub n hn hup, hup, hrest⟩

/-- An ID is trusted exactly when an entry shows it. -/
theorem verifyNeighborInDomain_iff :
    verifyNeighborInDomain neighbors id = true ↔ ∃ ip timer, ShownUp neighbors ip id timer := by
  unfold verifyNeighborInDomain ShownUp
  simp only [List.any_eq_true, Bool.and_eq_true, compareOpennopid_iff, beq_iff_eq]
  constructor
  · rintro ⟨n, hn, hid, hup⟩
    exact ⟨_, _, n, hn, hup, rfl, hid, rfl⟩
  · rintro ⟨_, _, n, hn, hup, -, hid, -⟩
    exact ⟨n, hn, hid, hup⟩

end ShownUp

namespace Loop

variable {s : Loop} {ip : Nat} {id : OpennopId} {timer : Int}

/-- The step accepts a message for the entry `n`. -/
def Accepts (H : Hmac) (s : Loop) (st : IpcStep) (n : Neighbor) (type : IpcMsgType) (id : OpennopId)
    (now : Int) : Prop :=
  ∃ fd chunks fin i, st = .data fd chunks fin now ∧
    Accepted H s.node (s.getpeername fd) (recvAll s.buf chunks) i n type id

theorem node_readData (H : Hmac) (s : Loop) (fd : Nat) (chunks : List (List UInt8)) (fin : RecvEnd)
    (now : Int) : (s.readData H fd chunks fin now).node = ⟨s.node.key, s.node.id,
      (ipcHandler H now s.node (s.getpeername fd) (recvAll s.buf chunks)).neighbors⟩ := by
  unfold readData
  dsimp only
  split
  · rfl
  · rw [node_close]
    rfl

theorem shownUp_sayHello {i : Nat} {n : Neighbor} {now : Int} {answer : HelloAnswer}
    (h : ShownUp (s.sayHello i n now answer).node.neighbors ip id timer) :
    ShownUp s.node.neighbors ip id timer := by
  unfold sayHello at h
  dsimp only at h
  generalize hs' : (if n.state = .up ∧ now - n.timer > 30 then _ else _ : Loop) = s' at h
  -- the time of the hello, and DOWN after thirty seconds
  have hshown : ShownUp s'.node.neighbors ip id timer → ShownUp s.node.neighbors ip id timer := by
    intro h'
    have htimer : ∀ n : Neighbor, Unraised n { n with hellotimer := now } :=
      fun n hup => ⟨hup, rfl, rfl, rfl⟩
    rw [← hs'] at h'
    split at h'
    · exact (ShownUp.of_updateNeighbor h' fun n => Unraised.of_ne nofun).of_modify htimer
    · exact ShownUp.of_modify h' htimer
  split at h
  · rw [node_close] at h
    exact hshown (ShownUp.of_modify h fun n => Unraised.of_ne nofun)
  · exact hshown h

theorem shownUp_helloNeighbor {i : Nat} {now : Int} {answer : HelloAnswer}
    (h : ShownUp (s.helloNeighbor i now answer).node.neighbors ip id timer) :
    ShownUp s.node.neighbors ip id timer := by
  unfold helloNeighbor at h
  split at h
  · exact h
  · split at h
    · split at h
      · split at h
        · exact ShownUp.of_modify h fun n => Unraised.of_ne nofun
        · exact ShownUp.of_modify h fun n hup => ⟨hup, rfl, rfl, rfl⟩
      · exact ShownUp.of_modify h fun n => Unraised.of_ne nofun
    · split at h
      · split at h
        · exact shownUp_sayHello h
        · exact h
      · exact h

theorem shownUp_acceptClient {fd peer : Nat} {now : Int}
    (h : ShownUp (s.acceptClient fd peer now).node.neighbors ip id timer) :
    ShownUp s.node.neighbors ip id timer := by
  unfold acceptClient at h
  split at h
  · exact ShownUp.of_modify h fun n => Unraised.of_ne nofun
  · exact h

theorem shownUp_addUpdateNeighbor {addr : Nat} {key : IpcKey} {now : Int}
    (h : ShownUp (s.addUpdateNeighbor addr key now).node.neighbors ip id timer) :
    ShownUp s.node.neighbors ip id timer := by
  unfold addUpdateNeighbor at h
  split at h
  · exact ShownUp.of_modify h fun n hup => ⟨hup, rfl, rfl, rfl⟩
  · refine ShownUp.mono h fun n hn hup => ?_
    rcases List.mem_append.1 hn with hn | hn
    · exact hn
    · rw [List.mem_singleton.1 hn] at hup
      cases hup

theorem shownUp_delNeighbor {addr : Nat}
    (h : ShownUp (s.delNeighbor addr).node.neighbors ip id timer) :
    ShownUp s.node.neighbors ip id timer := by
  unfold delNeighbor at h
  split at h
  · exact ShownUp.mono h fun n hn _ => List.mem_of_mem_eraseIdx hn
  · exact h

/-- An accepted message puts its ID in the entry; only an I_SEE_YOU brings the entry UP. -/
theorem shownUp_readData {H : Hmac} {fd : Nat} {chunks : List (List UInt8)} {fin : RecvEnd}
    {now : Int} (h : ShownUp (s.readData H fd chunks fin now).node.neighbors ip id timer) :
    ShownUp s.node.neighbors ip id timer ∨
      ∃ n type, s.Accepts H (.data fd chunks fin now) n type id now ∧ n.neighborIP = ip ∧
        (type = .iSeeYou ∧ now = timer ∨
          type = .hereIAm ∧ ∃ id, ShownUp s.node.neighbors ip id timer) := by
  rw [node_readData] at h
  rcases ipcHandler_cases H now s.node (s.getpeername fd) (recvAll s.buf chunks) with
    ⟨i, n, type, id', hacc⟩ | ⟨hsame, -⟩
  · rw [(hacc.delivers now).1] at h
    obtain ⟨n', hn', hup, hip, hid, ht⟩ := h
    rcases mem_modify hn' with hmem | ⟨e, he, rfl⟩
    · exact .inl ⟨n', hmem, hup, hip, hid, ht⟩
    · obtain rfl : e = n := Option.some.inj (he.symm.trans hacc.entry)
      have hknown := hacc.known
      rcases hknown with rfl | rfl
      · exact .inr ⟨e, .hereIAm, ⟨fd, chunks, fin, i, rfl, hid ▸ hacc⟩, hip,
          .inr ⟨rfl, e.id, e, List.mem_of_getElem? he, hup, hip, rfl, ht⟩⟩
      · exact .inr ⟨e, .iSeeYou, ⟨fd, chunks, fin, i, rfl, hid ▸ hacc⟩, hip, .inl ⟨rfl, ht⟩⟩
  · rw [hsame] at h
    exact .inl h

/-- **What brings an entry UP.** -/
theorem shownUp_step {H : Hmac} {st : IpcStep}
    (h : ShownUp (s.step H st).node.neighbors ip id timer) :
    ShownUp s.node.neighbors ip id timer ∨
      ∃ n type now, s.Accepts H st n type id now ∧ n.neighborIP = ip ∧
        (type = .iSeeYou ∧ now = timer ∨
          type = .hereIAm ∧ ∃ id, ShownUp s.node.neighbors ip id timer) := by
  cases st with
  | hello i now answer => exact .inl (shownUp_helloNeighbor h)
  | accept fd peer now => exact .inl (shownUp_acceptClient h)
  | data fd chunks fin now =>
    rcases shownUp_readData h with hold | ⟨n, type, hacc⟩
    · exact .inl hold
    · exact .inr ⟨n, type, now, hacc⟩
  | hangup fd =>
    change ShownUp (s.close fd).node.neighbors ip id timer at h
    rw [node_close] at h
    exact .inl h
  | reset fd => exact .inl h
  | addUpdate addr key now => exact .inl (shownUp_addUpdateNeighbor h)
  | delete addr => exact .inl (shownUp_delNeighbor h)

/-! ## A message that is refused once -/

theorem buf_close (s : Loop) (fd : Nat) : (s.close fd).buf = s.buf := by
  unfold close
  split <;> rfl

theorem buf_helloNeighbor (s : Loop) (i : Nat) (now : Int) (answer : HelloAnswer) :
    (s.helloNeighbor i now answer).buf = s.buf := by
  have hsay : ∀ n : Neighbor, (s.sayHello i n now answer).buf = s.buf := by
    intro n
    unfold sayHello
    dsimp only
    generalize hs' : (if n.state = .up ∧ now - n.timer > 30 then _ else _ : Loop) = s'
    have hbuf : s'.buf = s.buf := by
      rw [← hs']
      split <;> rfl
    split
    · rw [buf_close]
      exact hbuf
    · exact hbuf
  unfold helloNeighbor
  split
  · rfl
  · split
    · split
      · split <;> rfl
      · rfl
    · split
      · split
        · exact hsay _
        · rfl
      · rfl

theorem buf_step (H : Hmac) (s : Loop) {st : IpcStep}
    (h : ∀ fd chunks fin now, st ≠ .data fd chunks fin now) : (s.step H st).buf = s.buf := by
  cases st with
  | hello i now answer => exact buf_helloNeighbor s i now answer
  | accept fd peer now =>
    change (s.acceptClient fd peer now).buf = s.buf
    unfold acceptClient
    split <;> rfl
  | data fd chunks fin now => exact absurd rfl (h fd chunks fin now)
  | hangup fd => exact buf_close s fd
  | reset fd => rfl
  | addUpdate addr key now =>
    change (s.addUpdateNeighbor addr key now).buf = s.buf
    unfold addUpdateNeighbor
    split <;> rfl
  | delete addr =>
    change (s.delNeighbor addr).buf = s.buf
    unfold delNeighbor
    split <;> rfl

end Loop

section Forged

variable {H : Hmac} {n : Neighbor} {m : Mem}

/-- Whatever HMAC a message came with, the check leaves an authentic one behind. -/
theorem authentic_calculateHmac (hkey : ¬ n.key.isEmpty) (hsec : msgSecurity m = 1) :
    Authentic H n (calculateHmacSha256 H n.key (m.fill securityData 32 0)) := by
  have hmac := calculateHmac_fill (H := H) (m := m) n.key
  generalize hm' : calculateHmacSha256 H n.key (m.fill securityData 32 0) = m' at hmac ⊢
  have hout : ∀ i, i < securityData ∨ securityData + 32 ≤ i → m' i = m i := by
    intro i hi
    have hlen := H.length_digest n.key.block
      ((m.fill securityData 32 0).read 0 (msgLength (m.fill securityData 32 0)))
    rw [← hm', calculateHmacSha256, write_out _ (by omega), fill_out _ _ hi]
  have hlength : msgLength m' = msgLength m :=
    le16_congr fun i _ hi => hout i (.inl (by unfold securityData; omega))
  have hfill : m'.fill securityData 32 0 = m.fill securityData 32 0 := by
    funext i
    by_cases hi : securityData ≤ i ∧ i < securityData + 32
    · rw [fill_in _ _ hi.1 hi.2, fill_in _ _ hi.1 hi.2]
    · rw [fill_out _ _ (by omega), fill_out _ _ (by omega), hout i (by omega)]
  refine ⟨?_, fun _ => ?_⟩
  · rw [IpcKey.security, if_neg hkey, ← hsec]
    exact hout 6 (.inl (by decide))
  · rw [hmac, hfill, hlength]

/-- A wrong HMAC changes nothing but the buffer. -/
theorem ipcHandler_wrong {now : Int} {node : IpcNode} {peer : Option Nat} {i : Nat}
    (hi : findNeighborBySocket peer node.neighbors = some i) (hn : node.neighbors[i]? = some n)
    (h0 : m 0 = msgTypeIpc) (hkey : ¬ n.key.isEmpty) (hsec : msgSecurity m = 1)
    (hwrong : m.read securityData 32 ≠
      H.digest n.key.block ((m.fill securityData 32 0).read 0 (msgLength m))) :
    ipcHandler H now node peer m =
      refuse node (-1) (calculateHmacSha256 H n.key (m.fill securityData 32 0)) := by
  unfold ipcHandler
  rw [if_pos h0, checkSecurity_eq hi hn, validateSecurity_eq, if_neg hkey, if_pos hsec,
    checkHmacSha256, calculateHmac_fill, if_neg hwrong]

def forgery (mac : List UInt8) (id : OpennopId) : List UInt8 :=
  headerBytes 48 1 ++ mac ++ bodyBytes .iSeeYou id

/-- What a buffer holds after a forgery has been read into it. -/
structure Forged (mac : List UInt8) (id : OpennopId) (m : Mem) : Prop where
  header : m.Holds 0 (headerBytes 48 1)
  mac : m.read securityData 32 = mac
  body : m.Holds 40 (bodyBytes .iSeeYou id)

theorem forged_write {mac : List UInt8} (hmac : mac.length = 32) (id : OpennopId) (m : Mem) :
    Forged mac id (m.write 0 (forgery mac id)) := by
  obtain ⟨hfront, hbody⟩ := holds_append.1 (holds_write m 0 (forgery mac id))
  obtain ⟨hheader, hmid⟩ := holds_append.1 hfront
  rw [List.length_append, hmac] at hbody
  exact ⟨hheader, hmid.read hmac, hbody⟩

theorem Forged.unsigned {mac : List UInt8} {id : OpennopId} (h : Forged mac id m) :
    (m.fill securityData 32 0).read 0 (msgLength m) = unsignedBytes .iSeeYou id := by
  rw [msgLength_of_holds h.header (by omega)]
  have hheader : (m.fill securityData 32 0).Holds 0 (headerBytes 48 1) :=
    h.header.congr fun j _ hj => fill_out m 0 (.inl hj)
  have hbody : (m.fill securityData 32 0).Holds 40 (bodyBytes .iSeeYou id) :=
    h.body.congr fun j hj _ => fill_out m 0 (.inr hj)
  exact Holds.read
    (holds_append.2 ⟨holds_append.2 ⟨hheader, holds_fill m securityData 32 0⟩, hbody⟩) rfl

/-- The check leaves a message behind that is accepted for every entry with the key. -/
theorem Forged.accepted {mac : List UInt8} {id : OpennopId} (h : Forged mac id m) {node : IpcNode}
    {peer : Option Nat} {i : Nat} (hi : findNeighborBySocket peer node.neighbors = some i)
    (hn : node.neighbors[i]? = some n) (hkey : ¬ n.key.isEmpty) :
    Accepted H node peer (calculateHmacSha256 H n.key (m.fill securityData 32 0)) i n
      .iSeeYou id := by
  have ha := authentic_calculateHmac (H := H) hkey (msgSecurity_of_holds h.header)
  generalize hm' : calculateHmacSha256 H n.key (m.fill securityData 32 0) = m' at ha ⊢
  have hout : ∀ j, j < 8 ∨ 40 ≤ j → m' j = m j := by
    intro j hj
    have hlen := H.length_digest n.key.block
      ((m.fill securityData 32 0).read 0 (msgLength (m.fill securityData 32 0)))
    unfold securityData at hm' hlen
    rw [← hm', calculateHmacSha256, securityData, write_out _ (by omega), fill_out _ _ (by omega)]
  have hmessages : n.key.messages = 40 := if_neg hkey
  have hbody : m'.Holds 40 (bodyBytes .iSeeYou id) := h.body.congr fun j hj _ => hout j (.inr hj)
  obtain ⟨⟨htype, htype', -, -⟩, hid⟩ := holds_body.1 hbody
  refine ⟨hi, hn, ?_, ha, .inr rfl, ?_, ?_⟩
  · rw [hout 0 (by omega)]
    exact (holds_header.1 h.header).1
  · rw [hmessages, le16, htype, htype']
    rfl
  · rw [hmessages]
    exact OpennopId.bytes_inj (by rw [OpennopId.load_bytes]; exact hid.read rfl)

end Forged

namespace Loop

theorem buf_run (H : Hmac) {s : Loop} {l : List IpcStep}
    (h : ∀ st ∈ l, ∀ fd chunks fin now, st ≠ .data fd chunks fin now) :
    (Trace.run (step H) s l).buf = s.buf := by
  induction l generalizing s with
  | nil => rfl
  | cons st l ih =>
    rw [Trace.run_cons, ih fun st' hst' => h st' (List.mem_cons_of_mem st hst')]
    exact buf_step H s (h st List.mem_cons_self)

/-- **A wrong HMAC is refused once.** Whoever has a connection from the address of a neighbor with a
key sends an I_SEE_YOU with any 32 bytes but the right ones for its HMAC. That changes no entry. But
when the connection is closed, with no data on any descriptor in between, the entry is UP with the
ID of that message, and the ID is trusted. -/
theorem forgery_trusted (H : Hmac) {s : Loop} {fd peer i : Nat} {n : Neighbor} {mac : List UInt8}
    {id : OpennopId} {t t' : Int} {l : List IpcStep} (hfd : s.getpeername fd = some peer)
    (hi : findNeighborByAddr s.node.neighbors peer = some i) (hn : s.node.neighbors[i]? = some n)
    (hkey : ¬ n.key.isEmpty) (hmac : mac.length = 32)
    (hwrong : mac ≠ H.digest n.key.block (unsignedBytes .iSeeYou id))
    (hquiet : ∀ st ∈ l, ∀ fd chunks fin now, st ≠ .data fd chunks fin now) {s₁ s₂ : Loop}
    (hs₁ : s₁ = s.step H (.data fd [forgery mac id] .again t)) (hs₂ : s₂ = Trace.run (step H) s₁ l)
    (hfd₂ : s₂.getpeername fd = some peer) {j : Nat} {n₂ : Neighbor}
    (hj : findNeighborByAddr s₂.node.neighbors peer = some j)
    (hn₂ : s₂.node.neighbors[j]? = some n₂) (hkey₂ : n₂.key = n.key) :
    s₁.node.neighbors = s.node.neighbors ∧
      (s₂.step H (.data fd [] .eof t')).node.neighbors[j]? =
        some { n₂ with id, state := .up, timer := t' } ∧
      verifyNeighborInDomain (s₂.step H (.data fd [] .eof t')).node.neighbors id = true := by
  have hforged : Forged mac id (recvAll s.buf [forgery mac id]) := forged_write hmac id s.buf
  have hi' : findNeighborBySocket (s.getpeername fd) s.node.neighbors = some i := by
    rw [hfd]
    exact hi
  have hj' : findNeighborBySocket (s₂.getpeername fd) s₂.node.neighbors = some j := by
    rw [hfd₂]
    exact hj
  have hrefused : ipcHandler H t s.node (s.getpeername fd) (recvAll s.buf [forgery mac id]) =
      refuse s.node (-1) (calculateHmacSha256 H n.key
        ((recvAll s.buf [forgery mac id]).fill securityData 32 0)) := by
    refine ipcHandler_wrong hi' hn (holds_header.1 hforged.header).1 hkey
      (msgSecurity_of_holds hforged.header) ?_
    rw [hforged.mac, hforged.unsigned]
    exact hwrong
  -- the buffer that the second callback is given
  have hbuf : s₂.buf = calculateHmacSha256 H n₂.key
      ((recvAll s.buf [forgery mac id]).fill securityData 32 0) := by
    rw [hs₂, buf_run H hquiet, hs₁, hkey₂]
    change (ipcHandler H t s.node (s.getpeername fd) (recvAll s.buf [forgery mac id])).buf = _
    rw [hrefused]
    rfl
  have hacc : Accepted H s₂.node (s₂.getpeername fd) (recvAll s₂.buf []) j n₂ .iSeeYou id := by
    change Accepted H s₂.node (s₂.getpeername fd) s₂.buf j n₂ .iSeeYou id
    rw [hbuf]
    exact hforged.accepted hj' hn₂ (hkey₂ ▸ hkey)
  have hup : (s₂.step H (.data fd [] .eof t')).node.neighbors[j]? =
      some { n₂ with id, state := .up, timer := t' } := by
    change (s₂.readData H fd [] .eof t').node.neighbors[j]? = _
    rw [node_readData]
    dsimp only
    rw [(hacc.delivers t').1, List.getElem?_modify, hn₂]
    simp [deliver, saveId]
  refine ⟨?_, hup,
    verifyNeighborInDomain_iff.2 ⟨_, _, _, List.mem_of_getElem? hup, rfl, rfl, rfl, rfl⟩⟩
  rw [hs₁]
  change (s.readData H fd [forgery mac id] .again t).node.neighbors = _
  rw [node_readData, hrefused]
  rfl

/-- A node with a connection from its neighbor, which has the key `k`. -/
def connected : Loop where
  buf := fun _ => 0
  node := keyedNode
  sockets := fun fd => if fd = 7 then some { peer := 33554442 } else none
  closed := []
  log := []

/-- Zeros are not the HMAC of the message. -/
theorem forgery_trusted_connected :
    verifyNeighborInDomain connected.node.neighbors ⟨6, 6, 6, 6⟩ = false ∧
      verifyNeighborInDomain (Trace.run (step sumHmac) connected
        [.data 7 [forgery (List.replicate 32 0) ⟨6, 6, 6, 6⟩] .again 100,
          .data 7 [] .eof 101]).node.neighbors ⟨6, 6, 6, 6⟩ = true := by
  have hfd : connected.getpeername 7 = some 33554442 := rfl
  have hi : findNeighborByAddr connected.node.neighbors 33554442 = some 0 := rfl
  have hn : connected.node.neighbors[0]? = some { neighborIP := 33554442, key := oneKey } := rfl
  have hj : findNeighborByAddr (connected.step sumHmac (.data 7
      [forgery (List.replicate 32 0) ⟨6, 6, 6, 6⟩] .again 100)).node.neighbors
        33554442 = some 0 := by
    decide +kernel
  have hn₂ : (connected.step sumHmac (.data 7
      [forgery (List.replicate 32 0) ⟨6, 6, 6, 6⟩] .again 100)).node.neighbors[0]? =
        some { neighborIP := 33554442, key := oneKey } := by
    decide +kernel
  refine ⟨by decide, ?_⟩
  exact (forgery_trusted sumHmac hfd hi hn (by decide) rfl (by decide +kernel) (l := []) (by simp)
    rfl rfl rfl hj hn₂ rfl).2.2

end Loop

end Opennop
