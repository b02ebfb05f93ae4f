import Opennop.Lib.Fill
import Opennop.Lib.Trace
import Opennop.Node.Announce
import Opennop.Session.Keepalive

/-!
# Keepalives and removed sessions (`opennopd/subsystems/sessioncleanup.c`)

The packet that `sendkeepalive` builds is tagged with the local ID, and it is an ACK. The fetcher of
another accelerator that has no session of the connection takes it for a packet of a connection that
is tracked elsewhere and makes the session again. `Recreates` is the condition for that, `Pair` two
accelerators that sweep their tables and get each other's keepalives.
-/

namespace Opennop

open Mem

/-! ## The packet -/

def le16Bytes (v : Nat) : List UInt8 := [UInt8.ofNat v, UInt8.ofNat (v / 256)]

def le32Bytes (v : Nat) : List UInt8 := le16Bytes v ++ le16Bytes (v / 65536)

def be32Bytes (v : Nat) : List UInt8 := (le32Bytes v).reverse

/-- What `sendkeepalive` writes before the tag: the two headers without options. The sequence number
is one less than that of the session. -/
def keepaliveHeader (m : Keepalive) : Mem :=
  Mem.ofList ([0x45, 0, 0, 40, 0, 0, 0, 0, 64, 6, 0, 0] ++ le32Bytes m.saddr ++ le32Bytes m.daddr ++
    le16Bytes m.source ++ le16Bytes m.dest ++ be32Bytes (m.seq + 4294967295) ++
      be32Bytes m.ackSeq ++
    [0x50, 16, 0xff, 0xff, 0, 0, 0, 0])

/-- The packet that `sendkeepalive` sends. -/
def sendkeepalive (env : Env) (m : Keepalive) : Exec Mem := do
  let p ← setTag env (keepaliveHeader m)
  return checksum p

theorem keepaliveHeader_ihl (m : Keepalive) : (keepaliveHeader m).ihl = 5 := by
  have h0 : keepaliveHeader m 0 = 0x45 := rfl
  unfold ihl
  rw [h0]
  rfl

theorem keepaliveHeader_tcpOff (m : Keepalive) : (keepaliveHeader m).tcpOff = 20 := by
  unfold tcpOff
  rw [keepaliveHeader_ihl]

theorem keepaliveHeader_flags (m : Keepalive) : (keepaliveHeader m).flags = 16 := by
  have h33 : keepaliveHeader m 33 = 16 := rfl
  unfold flags
  rw [keepaliveHeader_tcpOff, h33]
  rfl

theorem keepaliveHeader_shows (m : Keepalive) : Shows (keepaliveHeader m) 5 [] [] where
  ihl := by rw [keepaliveHeader_ihl]
  doff := by
    have h32 : keepaliveHeader m 32 = 0x50 := rfl
    unfold doff
    rw [keepaliveHeader_tcpOff, h32]
    rfl
  five_le := Nat.le_refl 5
  area := ⟨by simp, Nat.zero_le _, rfl⟩
  totLen := by
    have h2 : keepaliveHeader m 2 = 0 := rfl
    have h3 : keepaliveHeader m (2 + 1) = 40 := rfl
    unfold totLen be16
    rw [keepaliveHeader_ihl, h2, h3]
    rfl
  data := rfl

theorem le16_bytes {m : Mem} {k v : Nat} (h : m.Holds k (le16Bytes v)) : m.le16 k = v % 65536 := by
  rw [le16Bytes, holds_cons, holds_cons] at h
  unfold le16
  rw [h.1, h.2.1, UInt8.toNat_ofNat', UInt8.toNat_ofNat']
  omega

theorem le32_bytes {m : Mem} {k v : Nat} (h : m.Holds k (le32Bytes v)) :
    m.le32 k = v % 4294967296 := by
  rw [le32Bytes, holds_append] at h
  have hhigh : m.le16 (k + 2) = v / 65536 % 65536 := le16_bytes h.2
  unfold le32
  rw [le16_bytes h.1, hhigh]
  omega

theorem keepaliveHeader_key (m : Keepalive) : (keepaliveHeader m).key =
    sortSockets (m.saddr % 4294967296) (m.source % 65536) (m.daddr % 4294967296)
      (m.dest % 65536) := by
  have hall :
    Filled (keepaliveHeader m) ([0x45, 0, 0, 40, 0, 0, 0, 0, 64, 6, 0, 0] ++ (le32Bytes m.saddr ++
      (le32Bytes m.daddr ++
        (le16Bytes m.source ++ (le16Bytes m.dest ++ (be32Bytes (m.seq + 4294967295) ++
        (be32Bytes m.ackSeq ++ [0x50, 16, 0xff, 0xff, 0, 0, 0, 0]))))))) := by
    simpa only [keepaliveHeader, List.append_assoc] using filled_ofList _
  -- the four fields, one after the other
  have hsaddr : (keepaliveHeader m).saddr = m.saddr % 4294967296 := le32_bytes (hall.holds rfl)
  rw [← List.append_assoc] at hall
  have hdaddr : (keepaliveHeader m).daddr = m.daddr % 4294967296 := le32_bytes (hall.holds rfl)
  rw [← List.append_assoc] at hall
  have hsource : (keepaliveHeader m).source = m.source % 65536 := by
    unfold source
    rw [keepaliveHeader_tcpOff]
    exact le16_bytes (hall.holds rfl)
  rw [← List.append_assoc] at hall
  have hdest : (keepaliveHeader m).dest = m.dest % 65536 := by
    unfold dest
    rw [keepaliveHeader_tcpOff]
    exact le16_bytes (hall.holds rfl)
  unfold Mem.key
  rw [hsaddr, hdaddr, hsource, hdest]

/-- **The keepalive carries the tag of its sender.** -/
theorem sendkeepalive_eq (env : Env) (m : Keepalive) :
    ∃ p, sendkeepalive env m = .ok p ∧ Shows p 8 [tag env.id.bytes] [] ∧
      SameEnds (keepaliveHeader m) p := by
  have h := keepaliveHeader_shows m
  have hihl := keepaliveHeader_ihl m
  obtain ⟨p, hp, hs, hh⟩ := setNodHeaderData_grow env.gap h (by rw [hihl]; decide) rfl
    env.id.length_bytes (by decide) (by decide) (by rw [hihl]; decide)
  refine ⟨checksum p, ?_, hs.checksum, (hh.sameEnds h.ihl).trans (sameEnds_checksum hs.ihl)⟩
  unfold sendkeepalive setTag
  rw [hp]
  rfl

/-- A packet that `sendkeepalive` has built. -/
def IsKeepalivePacket (p : Mem) : Prop := ∃ env m, sendkeepalive env m = .ok p

theorem IsKeepalivePacket.fields {p : Mem} (h : IsKeepalivePacket p) :
    ∃ id, Shows p 8 [tag (OpennopId.bytes id)] [] ∧ p.protocol = ipprotoTcp ∧ p.syn = false ∧
      p.ack = true ∧ p.fin = false := by
  obtain ⟨env, m, hp⟩ := h
  obtain ⟨p', hp', hs, hends⟩ := sendkeepalive_eq env m
  obtain rfl : p' = p := Except.ok.inj (hp'.symm.trans hp)
  have hflags : p'.flags = 16 := by rw [hends.flags, keepaliveHeader_flags]
  have hprotocol : p'.protocol = ipprotoTcp := by
    rw [hends.protocol]
    rfl
  refine ⟨env.id, hs, hprotocol, ?_, ?_, ?_⟩
  · rw [syn, hflags]
    rfl
  · rw [Mem.ack, hflags]
    rfl
  · rw [Mem.fin, hflags]
    rfl

/-! ## The fetcher that gets it -/

/-- What the fetcher makes of a keepalive of a connection it has no session for. -/
theorem fetcherRecord_keepalive {p : Mem} (hp : IsKeepalivePacket p) (env : Env) (id ret : Nat)
    (buffer : Bool) (new : Option Session) :
    ∃ st v, fetcherRecord env id ret buffer new p none = .ok (st, v) ∧
      (st = none ↔ ¬ (env.running ∧ id ≠ 0 ∧ new.isSome)) := by
  obtain ⟨remote, hs, hprotocol, hsyn, hack, hfin⟩ := hp.fields
  have hs' : Shows p 8 ([] ++ tag (OpennopId.bytes remote) :: []) [] := hs
  have hremote : remoteID env p = .ok (some remote) := remoteID_tag env hs' rfl
  have hfilled : setTag env p = .ok p :=
    setNodHeaderData_filled (getNodHeaderData_tag env.gap remote.length_bytes hs' rfl).1 _
  unfold fetcherRecord
  by_cases hrun : env.running
  · rw [if_pos hrun]
    by_cases hid : id ≠ 0
    · have hcond : ¬ (p.syn = true) ∧ p.ack = true ∧ ¬ (p.fin = true) := by simp [hsyn, hack, hfin]
      rw [if_pos ⟨hprotocol, hid⟩, hremote, ok_bind, if_neg (by simp [hsyn])]
      dsimp only
      rw [if_pos hcond]
      cases new with
      | none => exact ⟨none, .accept p, rfl, by simp⟩
      | some s =>
        unfold recoverRecord
        cases inDomain env (some remote) with
        | some id' => exact ⟨_, _, rfl, by simp [hrun, hid]⟩
        | none =>
          rw [hfilled]
          exact ⟨_, _, rfl, by simp [hrun, hid]⟩
    · rw [if_neg fun h => hid h.2]
      exact ⟨none, .acceptOriginal, rfl, by simp [hid]⟩
  · rw [if_neg hrun]
    exact ⟨none, .acceptOriginal, rfl, by simp [hrun]⟩

/-- **The fetcher makes the session again** exactly when the service runs, the packet has a number
and there is memory. -/
theorem fetcherCallback_keepalive {A : Type} [DecidableEq A] [Fintype A]
    (hcard : Fintype.card A < 4294967296) (workers : Nat) {t : Table A} (h : Sound t) (env : Env)
    {calloc : Option A} (hfree : ∀ a, calloc = some a → t.heap a = none) (id ret : Nat)
    (buffer : Bool) {p : Mem} (hp : IsKeepalivePacket p) (hnone : t.sessionAt p.key = none) :
    ∃ t' v, (fetcherCallback env id ret buffer p).exec workers calloc t = .ok (t', v) ∧ Sound t' ∧
      (t'.sessionAt p.key = none ↔ ¬ (env.running ∧ id ≠ 0 ∧ calloc.isSome)) ∧
      ∀ k, k ≠ p.key → t'.sessionAt k = t.sessionAt k := by
  obtain ⟨st, v, hrecord, hiff⟩ := fetcherRecord_keepalive hp env id ret buffer
    (calloc.map fun _ => newSession p.key (pickQueue workers t.sessions))
  have houtcome := h.fetcherCallback hcard workers env hfree id ret buffer p
  rw [hnone] at houtcome
  obtain ⟨t', ht', h', hat, hother⟩ := houtcome.of_ok hrecord
  refine ⟨t', v, ht', h', ?_, hother⟩
  rw [hat, hiff, Option.isSome_map]

/-! ## Two accelerators -/

/-- An accelerator: its table, the packets on their way to it, and those in the queues of its
workers. -/
structure Accelerator (A : Type) where
  table : Table A
  inbox : List Mem
  queue : List Mem

/-- Two accelerators on one path. -/
abbrev Pair (A : Type) := Bool → Accelerator A

/-- What happens at one of the two, with what the node is and knows at the time. -/
inductive PairStep (A : Type) where
  /-- `cleanuplist` of a bucket -/
  | sweep (i : Bool) (env : Env) (b : Nat)
  /-- The fetcher gets a packet; `calloc` is the result of its allocation. -/
  | fetch (i : Bool) (env : Env) (j id ret : Nat) (buffer : Bool) (calloc : Option A)
  /-- A worker gets a packet. -/
  | work (i : Bool) (env : Env) (reread : Mem) (j : Nat)
  /-- A packet is lost on its way. -/
  | lose (i : Bool) (j : Nat)

def Verdict.queued : Verdict → Option Mem
  | .optimize _ p => some p
  | .deoptimize _ p => some p
  | _ => none

namespace Pair

variable {A : Type} [DecidableEq A] [Fintype A]

def set (s : Pair A) (i : Bool) (n : Accelerator A) : Pair A := Function.update s i n

/-- A sweep: its keepalives are on their way to the other accelerator. -/
def sweep (s : Pair A) (i : Bool) (env : Env) (b : Nat) : Pair A :=
  match cleanuplistSends (s i).table b with
  | .ok (t, ms) =>
    (s.set i { s i with table := t }).set (!i)
      { s (!i) with inbox := (s (!i)).inbox ++ ms.filterMap fun m =>
      (sendkeepalive env m).toOption }
  | .error _ => s

/-- The state after a call of one of the two that returned. -/
def commit (s : Pair A) (i : Bool) (r : Exec (Table A × Verdict))
    (next : Table A → Verdict → Accelerator A) : Pair A :=
  match r with
  | .ok (t, v) => s.set i (next t v)
  | .error _ => s

/-- The fetcher gets the packet at position `j`. -/
def fetch (workers : Nat) (s : Pair A) (i : Bool) (env : Env) (j id ret : Nat) (buffer : Bool)
    (calloc : Option A) : Pair A :=
  match (s i).inbox[j]? with
  | some p =>
    s.commit i ((fetcherCallback env id ret buffer p).exec workers calloc (s i).table) fun t v =>
      ⟨t, (s i).inbox.eraseIdx j, (s i).queue ++ v.queued.toList⟩
  | none => s

/-- A worker gets the packet at position `j`, which then leaves the two. -/
def work (workers : Nat) (s : Pair A) (i : Bool) (env : Env) (reread : Mem) (j : Nat) :
    Pair A :=
  match (s i).queue[j]? with
  | some p =>
    s.commit i ((workerThread env reread p).exec workers none (s i).table) fun t _ =>
      { s i with table := t, queue := (s i).queue.eraseIdx j }
  | none => s

def step (workers : Nat) (s : Pair A) : PairStep A → Pair A
  | .sweep i env b => s.sweep i env b
  | .fetch i env j id ret buffer calloc => s.fetch workers i env j id ret buffer calloc
  | .work i env reread j => s.work workers i env reread j
  | .lose i j => s.set i { s i with inbox := (s i).inbox.eraseIdx j }

/-- The allocator returns a block that is not in use. -/
def Allowed (s : Pair A) : PairStep A → Prop
  | .fetch i _ _ _ _ _ calloc => ∀ a, calloc = some a → (s i).table.heap a = none
  | _ => True

/-- Both tables are in order, and all packets on their way are keepalives. -/
def InOrder (s : Pair A) : Prop := ∀ i, Sound (s i).table ∧ ∀ p ∈ (s i).inbox, IsKeepalivePacket p

/-- Neither has a session of the connection. -/
def Removed (k : Key) (s : Pair A) : Prop := ∀ i, (s i).table.sessionAt k = none

/-- A keepalive of the connection reaches the fetcher of an accelerator whose service runs and which
has memory for a session. -/
def Recreates (k : Key) (s : Pair A) : PairStep A → Prop
  | .fetch i env j id _ _ calloc =>
    (∃ p, (s i).inbox[j]? = some p ∧ p.key = k) ∧ env.running ∧ id ≠ 0 ∧ calloc.isSome
  | _ => False

/-! ### One step -/

variable {s : Pair A} {k : Key} {workers : Nat}

omit [DecidableEq A] [Fintype A] in
theorem InOrder.set (h : s.InOrder) (i : Bool) {n : Accelerator A} (hn : Sound n.table)
    (hp : ∀ p ∈ n.inbox, IsKeepalivePacket p) : (s.set i n).InOrder := by
  intro j
  by_cases hj : j = i
  · subst hj
    rw [Pair.set, Function.update_self]
    exact ⟨hn, hp⟩
  · rw [Pair.set, Function.update_of_ne hj]
    exact h j

omit [DecidableEq A] [Fintype A] in
theorem InOrder.commit (h : s.InOrder) (i : Bool) {r : Exec (Table A × Verdict)}
    {next : Table A → Verdict → Accelerator A}
    (hr : ∀ t v, r = .ok (t, v) → Sound (next t v).table ∧
    ∀ p ∈ (next t v).inbox, IsKeepalivePacket p) :
    (s.commit i r next).InOrder := by
  cases r with
  | error e => exact h
  | ok tv => exact h.set i (hr tv.1 tv.2 rfl).1 (hr tv.1 tv.2 rfl).2

omit [DecidableEq A] in
theorem removed_set (h : s.Removed k) (i : Bool) (n : Accelerator A) :
    (s.set i n).Removed k ↔ n.table.sessionAt k = none := by
  constructor
  · intro hset
    have hi := hset i
    rwa [Pair.set, Function.update_self] at hi
  · intro hn j
    by_cases hj : j = i
    · subst hj
      rw [Pair.set, Function.update_self]
      exact hn
    · rw [Pair.set, Function.update_of_ne hj]
      exact h j

omit [DecidableEq A] in
theorem Removed.commit (h : s.Removed k) (i : Bool) {r : Exec (Table A × Verdict)}
    {next : Table A → Verdict → Accelerator A}
    (hr : ∀ t v, r = .ok (t, v) → (next t v).table.sessionAt k = none) :
    (s.commit i r next).Removed k := by
  cases r with
  | error e => exact h
  | ok tv => exact (removed_set h i _).2 (hr tv.1 tv.2 rfl)

end Pair

theorem workerRecord_none (env : Env) (reread p : Mem) {st : Option Session} {v : Verdict}
    (h : workerRecord env reread p none = .ok (st, v)) : st = none := by
  unfold workerRecord at h
  generalize remoteID env p = r at h
  cases r with
  | error e => cases h
  | ok remote =>
    cases h
    rfl

theorem Sound.workerThread_keeps {A : Type} [DecidableEq A] [Fintype A]
    (hcard : Fintype.card A < 4294967296) (workers : Nat) {t t' : Table A} (h : Sound t) (env : Env)
    {reread p : Mem} {v : Verdict}
    (hexec : (Opennop.workerThread env reread p).exec workers none t = .ok (t', v)) :
    Sound t' ∧ ∀ k, t.sessionAt k = none → t'.sessionAt k = none := by
  obtain ⟨hrecord, h', hother⟩ := (h.workerThread hcard workers env reread p).of_exec hexec
  refine ⟨h', fun k hk => ?_⟩
  by_cases hkey : p.key = k
  · subst hkey
    rw [hk] at hrecord
    exact workerRecord_none env reread p hrecord
  · exact (hother k (Ne.symm hkey)).trans hk

theorem Sound.cleanuplistSends {A : Type} [DecidableEq A] [Fintype A]
    (hcard : Fintype.card A < 4294967296) {t : Table A} (h : Sound t) (b : Nat) :
    ∃ t' ms, Opennop.cleanuplistSends t b = .ok (t', ms) ∧ Sound t' ∧
      ∀ k, t.sessionAt k = none → t'.sessionAt k = none := by
  obtain ⟨σ, hr⟩ := h.refines
  obtain ⟨t', hclean, hsends, -⟩ := hr.cleanuplistSends hcard b
  obtain ⟨t'', hclean', h', hiff⟩ := h.cleanuplist hcard b
  obtain rfl : t' = t'' := Except.ok.inj (hclean.symm.trans hclean')
  refine ⟨t', _, hsends, h', fun k hk => ?_⟩
  refine Option.eq_none_iff_forall_ne_some.2 fun s' hs' => ?_
  obtain ⟨a, ha, rfl⟩ := h'.sessionAt_eq_some.1 hs'
  obtain ⟨s, hs, hif⟩ := (hiff a s').1 ha
  have hkey : s.key = s'.key := by
    split at hif
    · rw [hif.2]
      rfl
    · rw [hif]
  rw [h.sessionAt_eq_some.2 ⟨a, hs, hkey⟩] at hk
  cases hk

namespace Pair

variable {A : Type} [DecidableEq A] [Fintype A] {s : Pair A} {k : Key} {workers : Nat}
  (hcard : Fintype.card A < 4294967296)
include hcard

theorem InOrder.sweep (h : s.InOrder) (i : Bool) (env : Env) (b : Nat) :
    (s.sweep i env b).InOrder := by
  obtain ⟨t', ms, hsends, h', -⟩ := (h i).1.cleanuplistSends hcard b
  unfold Pair.sweep
  rw [hsends]
  have hi : (s.set i { s i with table := t' }).InOrder := h.set i h' (h i).2
  refine hi.set (!i) (h (!i)).1 fun p hp => ?_
  rcases List.mem_append.1 hp with hp | hp
  · exact (h (!i)).2 p hp
  · obtain ⟨m, -, hm⟩ := List.mem_filterMap.1 hp
    refine ⟨env, m, ?_⟩
    cases hsend : sendkeepalive env m with
    | error e =>
      rw [hsend] at hm
      cases hm
    | ok q =>
      rw [hsend] at hm
      rw [Option.some.inj hm]

theorem InOrder.fetch (h : s.InOrder) (i : Bool) (env : Env) (j id ret : Nat) (buffer : Bool)
    {calloc : Option A} (ha : ∀ a, calloc = some a → (s i).table.heap a = none) :
    (s.fetch workers i env j id ret buffer calloc).InOrder := by
  unfold Pair.fetch
  cases (s i).inbox[j]? with
  | none => exact h
  | some p =>
    refine h.commit i fun t v hexec => ?_
    obtain ⟨-, h', -⟩ :=
      ((h i).1.fetcherCallback hcard workers env ha id ret buffer p).of_exec hexec
    exact ⟨h', fun q hq => (h i).2 q (List.mem_of_mem_eraseIdx hq)⟩

theorem InOrder.work (h : s.InOrder) (i : Bool) (env : Env) (reread : Mem) (j : Nat) :
    (s.work workers i env reread j).InOrder := by
  unfold Pair.work
  cases (s i).queue[j]? with
  | none => exact h
  | some p =>
    refine h.commit i fun t v hexec => ?_
    exact ⟨((h i).1.workerThread_keeps hcard workers env hexec).1, (h i).2⟩

theorem InOrder.step (h : s.InOrder) {st : PairStep A} (ha : s.Allowed st) :
    (Pair.step workers s st).InOrder := by
  cases st with
  | sweep i env b => exact h.sweep hcard i env b
  | fetch i env j id ret buffer calloc => exact h.fetch hcard i env j id ret buffer ha
  | work i env reread j => exact h.work hcard i env reread j
  | lose i j => exact h.set i (h i).1 fun q hq => (h i).2 q (List.mem_of_mem_eraseIdx hq)

theorem Removed.sweep (hk : s.Removed k) (h : s.InOrder) (i : Bool) (env : Env) (b : Nat) :
    (s.sweep i env b).Removed k := by
  obtain ⟨t', ms, hsends, -, hnone⟩ := (h i).1.cleanuplistSends hcard b
  unfold Pair.sweep
  rw [hsends]
  have hi : (s.set i { s i with table := t' }).Removed k := (removed_set hk i _).2 (hnone k (hk i))
  exact (removed_set hi (!i) _).2 (hk (!i))

theorem Removed.work (hk : s.Removed k) (h : s.InOrder) (i : Bool) (env : Env) (reread : Mem)
    (j : Nat) : (s.work workers i env reread j).Removed k := by
  unfold Pair.work
  cases (s i).queue[j]? with
  | none => exact hk
  | some p =>
    refine hk.commit i fun t v hexec => ?_
    exact ((h i).1.workerThread_keeps hcard workers env hexec).2 k (hk i)

/-- The fetcher leaves the connection removed exactly when the packet is not one of its keepalives,
or does not have it made again. -/
theorem Removed.fetch_iff (hk : s.Removed k) (h : s.InOrder) (i : Bool) (env : Env) (j id ret : Nat)
    (buffer : Bool) {calloc : Option A}
    (ha : ∀ a, calloc = some a → (s i).table.heap a = none) :
    (s.fetch workers i env j id ret buffer calloc).Removed k ↔
      ¬ ((∃ p, (s i).inbox[j]? = some p ∧ p.key = k) ∧ env.running ∧ id ≠ 0 ∧ calloc.isSome) := by
  unfold Pair.fetch
  cases hp : (s i).inbox[j]? with
  | none =>
    refine iff_of_true hk ?_
    rintro ⟨⟨p, hp', -⟩, -⟩
    cases hp'
  | some p =>
    dsimp only
    by_cases hkey : p.key = k
    · subst hkey
      obtain ⟨t', v, hexec, -, hiff, -⟩ := fetcherCallback_keepalive hcard workers (h i).1 env ha id
        ret buffer ((h i).2 p (List.mem_of_getElem? hp)) (hk i)
      rw [hexec]
      refine (removed_set hk i _).trans (hiff.trans (not_congr ?_))
      exact ⟨fun hre => ⟨⟨p, rfl, rfl⟩, hre⟩, fun hre => hre.2⟩
    · refine iff_of_true ?_ ?_
      · refine hk.commit i fun t v hexec => ?_
        obtain ⟨-, -, hother⟩ :=
          ((h i).1.fetcherCallback hcard workers env ha id ret buffer p).of_exec hexec
        exact (hother k (Ne.symm hkey)).trans (hk i)
      · rintro ⟨⟨q, hq, hqk⟩, -⟩
        rw [← Option.some.inj hq] at hqk
        exact hkey hqk

/-- **A step keeps the connection removed exactly when it does not re-create it.** -/
theorem Removed.step_iff (hk : s.Removed k) (h : s.InOrder) {st : PairStep A} (ha : s.Allowed st) :
    (Pair.step workers s st).Removed k ↔ ¬ Recreates k s st := by
  cases st with
  | sweep i env b => exact iff_of_true (hk.sweep hcard h i env b) id
  | fetch i env j id ret buffer calloc => exact hk.fetch_iff hcard h i env j id ret buffer ha
  | work i env reread j => exact iff_of_true (hk.work hcard h i env reread j) id
  | lose i j => exact iff_of_true ((removed_set hk i _).2 (hk i)) id

end Pair

/-- **Keepalives make removed sessions again.** The fetcher of another accelerator inserts a session
for a keepalive of a connection it does not know unless its service does not run, the packet has no
number or there is no memory; and of two accelerators that have both removed a connection, both keep
it removed exactly as long as no keepalive of it that is still on its way meets such a fetcher. -/
theorem keepalive_recreates {A : Type} [DecidableEq A] [Fintype A]
    (hcard : Fintype.card A < 4294967296) (workers : Nat) :
    (∀ (sender env : Env) (m : Keepalive) (t : Table A) (calloc : Option A) (id ret : Nat)
        (buffer : Bool), Sound t → (∀ a, calloc = some a → t.heap a = none) →
      ∃ p, sendkeepalive sender m = .ok p ∧
        p.key = sortSockets (m.saddr % 4294967296) (m.source % 65536) (m.daddr % 4294967296)
          (m.dest % 65536) ∧
        (t.sessionAt p.key = none →
          ∃ t' v, (fetcherCallback env id ret buffer p).exec workers calloc t = .ok (t', v) ∧
            (t'.sessionAt p.key = none ↔ ¬ (env.running ∧ id ≠ 0 ∧ calloc.isSome)))) ∧
    ∀ (k : Key) (s : Pair A) (l : List (PairStep A)), s.InOrder → s.Removed k →
      Trace.Along (Pair.step workers) Pair.Allowed s l →
      (Trace.Always (Pair.step workers) (Pair.Removed k) s l ↔
        Trace.Along (Pair.step workers) (fun s st => ¬ Pair.Recreates k s st) s l) := by
  constructor
  · intro sender env m t calloc id ret buffer h hfree
    obtain ⟨p, hp, -, hends⟩ := sendkeepalive_eq sender m
    refine ⟨p, hp, ?_, fun hnone => ?_⟩
    · rw [← keepaliveHeader_key m]
      exact hends.key
    · obtain ⟨t', v, hexec, -, hiff, -⟩ :=
        fetcherCallback_keepalive hcard workers h env hfree id ret
        buffer ⟨sender, m, hp⟩ hnone
      exact ⟨t', v, hexec, hiff⟩
  · intro k s l h hk ha
    have hstep : ∀ s st, (Pair.InOrder s ∧ Pair.Removed k s) → Pair.Allowed s st →
        ((Pair.InOrder (Pair.step workers s st) ∧ Pair.Removed k (Pair.step workers s st)) ↔
          ¬ Pair.Recreates k s st) := fun s st hs ha =>
      (and_iff_right (hs.1.step hcard ha)).trans (hs.2.step_iff hcard hs.1 ha)
    have horder : Trace.Always (Pair.step workers) Pair.InOrder s l :=
      Trace.Always.of_step (fun _ _ hs ha => hs.step hcard ha) h ha
    have hboth := Trace.always_iff_along hstep ⟨h, hk⟩ ha
    rw [Trace.always_and] at hboth
    exact (and_iff_right horder).symm.trans hboth

/-! ### A connection that comes back -/

/-- One of the two has a session of a connection on which nothing is seen. -/
def silentPair : Pair (Fin 1) := fun i =>
  ⟨if i then initializeSessiontable (Fin 1) else (initializeSessiontable (Fin 1)).inserted
    (Fin.last 0) ⟨10, 1, 9, 1⟩ 0, [], []⟩

/-- The sweeps after which it is removed. -/
def silentSweeps : List (PairStep (Fin 1)) :=
  List.replicate 4 (.sweep false idleEnv (hashOf ⟨10, 1, 9, 1⟩))

theorem silentPair_inOrder : (Trace.run (Pair.step 1) silentPair silentSweeps).InOrder := by
  have hcard : Fintype.card (Fin 1) < 4294967296 := by decide
  have hstart : silentPair.InOrder := by
    intro i
    cases i with
    | true => exact ⟨Sound.init, by simp [silentPair]⟩
    | false =>
      have hinsert := (Refines.init (A := Fin 1)).insertsession_eq (a := 0) rfl 1 ⟨10, 1, 9, 1⟩
      obtain ⟨t, ht, h, -⟩ := Sound.init.insertsession hcard (a := (0 : Fin 1)) rfl
        (k := ⟨10, 1, 9, 1⟩) (fun b s hs => by cases hs) 1
      obtain rfl := (Prod.mk.inj (Except.ok.inj (hinsert.symm.trans ht))).1
      exact ⟨h, by simp [silentPair]⟩
  refine Trace.Always.last (Trace.Always.of_step (fun s st hs ha => hs.step hcard ha) hstart ?_)
  exact ⟨trivial, trivial, trivial, trivial, trivial⟩

theorem silentPair_removed :
    (Trace.run (Pair.step 1) silentPair silentSweeps).Removed ⟨10, 1, 9, 1⟩ := by
  intro i
  cases i <;> decide +kernel

/-- A keepalive that an accelerator without service gets, and keepalives that are lost. -/
theorem keepalive_recreates_lost :
    (∃ p, sendkeepalive idleEnv ⟨9, 1, 0, 10, 1, 0⟩ = .ok p ∧
      ∃ t' v, (fetcherCallback { idleEnv with running := false } 1 52 true p).exec 1 (some 0)
          (initializeSessiontable (Fin 1)) = .ok (t', v) ∧ t'.sessionAt p.key = none) ∧
    Trace.Always (Pair.step 1) (Pair.Removed ⟨10, 1, 9, 1⟩)
      (Trace.run (Pair.step 1) silentPair silentSweeps) [.lose true 0, .lose true 0,
        .lose true 0] := by
  constructor
  · obtain ⟨p, hp, -, hfetch⟩ := (keepalive_recreates (A := Fin 1) (by decide) 1).1 idleEnv
      { idleEnv with running := false } ⟨9, 1, 0, 10, 1, 0⟩ _ (some 0) 1 52 true Sound.init
      fun a _ => rfl
    obtain ⟨t', v, hexec, hiff⟩ := hfetch (sessionAt_init _)
    exact ⟨p, hp, t', v, hexec, hiff.2 fun h => Bool.noConfusion h.1⟩
  · refine ((keepalive_recreates (by decide) 1).2 _ _ _
      silentPair_inOrder silentPair_removed ?_).2 ?_
    · exact ⟨trivial, trivial, trivial, trivial⟩
    · exact ⟨id, id, id, trivial⟩

/-- Both have removed the connection, and the first keepalive that was sent for it comes in. -/
theorem not_removed_keepalive :
    (Trace.run (Pair.step 1) silentPair silentSweeps).Removed ⟨10, 1, 9, 1⟩ ∧
      ¬ (Pair.step 1 (Trace.run (Pair.step 1) silentPair silentSweeps)
        (.fetch true idleEnv 0 1 52 true (some 0))).Removed ⟨10, 1, 9, 1⟩ := by
  refine ⟨silentPair_removed, fun h => ?_⟩
  have hback : ((Pair.step 1 (Trace.run (Pair.step 1) silentPair silentSweeps)
      (.fetch true idleEnv 0 1 52 true (some 0)) true).table.sessionAt ⟨10, 1, 9, 1⟩).isSome := by
    decide +kernel
  rw [h true] at hback
  cases hback

end Opennop
