import Opennop.Buffer.Contents
import Opennop.Buffer.Protocol
import Opennop.Node.Parses

/-!
# What the three functions keep to

`rules` is a protocol for everything at once: the phases of `buffers`, the packets of `contents`,
the session to which a thread has a pointer, and faults. A thread makes calls only on the session
that its last lookup or insertion returned, and none after it has freed the session itself. Its only
faults are those of the option functions: the fetcher has none for a packet it parses, and a
processor none as long as it finds packets in its buffers that it parses.

`fetcherTask`, `workerTask` and the programs of the memory manager keep to `rules` whatever the
results of their actions are. Each protocol follows from it by forgetting the rest.
-/

namespace Opennop

open Opennop.Tree

variable {A B α β : Type}

/-! ## The rules -/

namespace Act

/-- The action is a call on the session at `a`. -/
def On (a : A) : Act A B → Prop
  | .call (.read a') | .call (.modify a' _) | .call (.clearsession a') => a' = a
  | _ => False

/-- The pointer of a thread after an action. -/
def pointer (o : Option A) : (e : Act A B) → e.Result → Option A
  | .call (.getsession _), r | .call (.insertsession _), r => r
  | .call (.clearsession _), _ => none
  | _, _ => o

def Faults : Act A B → Prop
  | .fault _ => True
  | _ => False

/-- The action is no call and no fault. -/
def Silent : Act A B → Prop
  | .call _ | .fault _ => False
  | _ => True

end Act

/-- A processor finds packets that it parses. -/
def Loads (env : Env) : (e : Act A B) → e.Result → Prop
  | .load _, r => WorkerParses env r.2
  | _, _ => True

/-- A thread makes calls only on the session it has a pointer to. -/
def pointers : Protocol (Act.Result (A := A) (B := B)) (Option A) where
  may o e := ∀ a, e.On a → o = some a
  after o e r o' := o' = e.pointer o r

/-- The phase of a thread, what it knows of its packet, the session it has a pointer to, and whether
it parses all that it has found. -/
structure Position (A B : Type) where
  phase : Phase B
  stage : Stage B
  pointer : Option A
  fine : Prop

/-- The protocol of a thread that finds what is `Expected`. -/
def rules (Expected : (e : Act A B) → e.Result → Prop) :
    Protocol (Act.Result (A := A) (B := B)) (Position A B) where
  may s e := (∀ a, e.On a → s.pointer = some a) ∧ (s.fine → ¬ e.Faults)
  after s e r s' := Goes s.phase e r s'.phase ∧ Tells s.stage e r s'.stage ∧
    s'.pointer = e.pointer s.pointer r ∧ (s.fine → Expected e r → s'.fine)

namespace Tree.Follows

variable {Expected : (e : Act A B) → e.Result → Prop} {ψ : α → Position A B → Prop}
  {s : Position A B} {c : Job A B α} (h : Follows (rules Expected) ψ s c)
include h

theorem buffers {ψ' : α → Phase B → Prop} (hψ : ∀ x s, ψ x s → ψ' x s.phase) :
    Follows Opennop.buffers ψ' s.phase c :=
  h.map Position.phase (fun _ _ _ _ => trivial) (fun _ _ _ _ h => h.1) hψ

theorem contents : Follows Opennop.contents (fun _ _ => True) s.stage c :=
  h.map Position.stage (fun _ _ _ _ => trivial) (fun _ _ _ _ h => h.2.1) fun _ _ _ => trivial

theorem pointers : Follows Opennop.pointers (fun _ _ => True) s.pointer c :=
  h.map Position.pointer (fun _ _ h _ => h.1) (fun _ _ _ _ h => h.2.2.1) fun _ _ _ => trivial

/-- A thread that parses what it finds does not fault. -/
theorem avoids (hs : s.fine) : Avoids Act.Faults Expected (fun _ => True) c := by
  induction h with
  | done _ => exact .done trivial
  | act hmay s' hafter _ ih =>
    exact .act (hmay.2 hs) fun r hr => ih r ((hafter r).2.2.2 hs hr)

end Tree.Follows

namespace Job

theorem ofProg_bind (c : Prog A α) (f : α → Prog A β) :
    (ofProg (c >>= f) : Job A B β) = ofProg c >>= fun x => ofProg (f x) := by
  induction c with
  | done x => rfl
  | fault e => exact congrArg (Tree.act _) (funext fun r => nomatch r)
  | getsession k next ih => exact congrArg (Tree.act _) (funext ih)
  | insertsession k next ih => exact congrArg (Tree.act _) (funext ih)
  | read a next ih => exact congrArg (Tree.act _) (funext ih)
  | modify a g next ih => exact congrArg (Tree.act _) (funext fun _ => ih)
  | clearsession a next ih => exact congrArg (Tree.act _) (funext fun _ => ih)

variable {Expected : (e : Act A B) → e.Result → Prop} {φ : Phase B} {σ : Stage B} {o : Option A}
  {F : Prop}

section Rules

variable {ψ : α → Position A B → Prop} {χ : β → Position A B → Prop} {s : Position A B}

theorem follows_act {e : Act A B} {f : e.Result → Job A B β} (he : e.Silent)
    (h : ∀ r, ∃ φ' σ', Goes φ e r φ' ∧ Tells σ e r σ' ∧
      Follows (rules Expected) χ ⟨φ', σ', o, F⟩ (f r)) :
    Follows (rules Expected) χ ⟨φ, σ, o, F⟩ (perform e >>= f) := by
  refine Follows.perform_bind ?_ fun r => ?_
  · cases e with
    | call c => exact he.elim
    | fault e => exact he.elim
    | _ => exact ⟨nofun, fun _ => id⟩
  · obtain ⟨φ', σ', hgoes, htells, hnext⟩ := h r
    refine ⟨⟨φ', σ', o, F⟩, ⟨hgoes, htells, ?_, fun hF _ => hF⟩, hnext⟩
    cases e with
    | call c => exact he.elim
    | _ => rfl

/-- A last action. -/
theorem follows_last {e : Act A B} {ψ : e.Result → Position A B → Prop} (he : e.Silent)
    (h : ∀ r, ∃ φ' σ', Goes φ e r φ' ∧ Tells σ e r σ' ∧ ψ r ⟨φ', σ', o, F⟩) :
    Follows (rules Expected) ψ ⟨φ, σ, o, F⟩ (perform e) :=
  follows_act (f := .done) he fun r => by
    obtain ⟨φ', σ', hgoes, htells, hψ⟩ := h r
    exact ⟨φ', σ', hgoes, htells, .done hψ⟩

theorem follows_call {c : Call A} {f : c.Result → Job A B β}
    (hc : ∀ a, (Act.call c : Act A B).On a → o = some a)
    (h : ∀ r, Follows (rules Expected) χ ⟨φ, σ, (Act.call c : Act A B).pointer o r, F⟩ (f r)) :
    Follows (rules Expected) χ ⟨φ, σ, o, F⟩ (perform (.call c) >>= f) :=
  Follows.perform_bind ⟨hc, fun _ => id⟩ fun r =>
    ⟨⟨φ, σ, (Act.call c : Act A B).pointer o r, F⟩, ⟨.call, .call, rfl, fun hF _ => hF⟩, h r⟩

theorem follows_fault {e : Fault} {next : (Act.fault e : Act A B).Result → Job A B α} (hF : ¬ F) :
    Follows (rules Expected) ψ ⟨φ, σ, o, F⟩ (.act (.fault e) next) :=
  .act ⟨fun _ h => h.elim, fun h => absurd h hF⟩ Empty.elim (fun r => r.elim) fun r => r.elim

theorem follows_exec {x : Exec α} {f : α → Job A B β} (hx : F → Returns x)
    (h : ∀ y, x = .ok y → Follows (rules Expected) χ ⟨φ, σ, o, F⟩ (f y)) :
    Follows (rules Expected) χ ⟨φ, σ, o, F⟩ (ofExec x >>= f) := by
  cases x with
  | ok y => exact h y rfl
  | error e =>
    refine follows_fault fun hF => ?_
    obtain ⟨y, hy⟩ := hx hF
    cases hy

theorem follows_lookup {k : Key} {f : Option A → Prog A β}
    (h : ∀ r, Follows (rules Expected) χ ⟨φ, σ, r, F⟩ (ofProg (f r) : Job A B β)) :
    Follows (rules Expected) χ ⟨φ, σ, o, F⟩ (ofProg (Prog.lookup k >>= f)) :=
  follows_call (c := .getsession k) (fun _ h => h.elim) h

theorem follows_insert {k : Key} {f : Option A → Prog A β}
    (h : ∀ r, Follows (rules Expected) χ ⟨φ, σ, r, F⟩ (ofProg (f r) : Job A B β)) :
    Follows (rules Expected) χ ⟨φ, σ, o, F⟩ (ofProg (Prog.insert k >>= f)) :=
  follows_call (c := .insertsession k) (fun _ h => h.elim) h

theorem follows_load {a : A} {f : Session → Prog A β}
    (h : ∀ s, Follows (rules Expected) χ ⟨φ, σ, some a, F⟩ (ofProg (f s) : Job A B β)) :
    Follows (rules Expected) χ ⟨φ, σ, some a, F⟩ (ofProg (Prog.load a >>= f)) :=
  follows_call (c := .read a) (fun _ h => congrArg some h) h

theorem follows_update {a : A} {g : Session → Session} {f : Unit → Prog A β}
    (h : Follows (rules Expected) χ ⟨φ, σ, some a, F⟩ (ofProg (f ()) : Job A B β)) :
    Follows (rules Expected) χ ⟨φ, σ, some a, F⟩ (ofProg (Prog.update a g >>= f)) :=
  follows_call (c := .modify a g) (fun _ h => congrArg some h) fun _ => h

theorem follows_lift {x : Exec α} {f : α → Prog A β} (hx : F → Returns x)
    (h : ∀ y, x = .ok y → Follows (rules Expected) χ ⟨φ, σ, o, F⟩ (ofProg (f y) : Job A B β)) :
    Follows (rules Expected) χ ⟨φ, σ, o, F⟩ (ofProg ((liftM x : Prog A α) >>= f)) := by
  cases x with
  | ok y => exact h y rfl
  | error e =>
    refine follows_fault fun hF => ?_
    obtain ⟨y, hy⟩ := hx hF
    cases hy

/-- What calls on the session table return. -/
theorem follows_returns {c : Prog A α} (h : Follows (rules Expected) ψ s (ofProg c : Job A B α)) :
    Follows (rules Expected) (fun x s => ψ x s ∧ c.Returns x) s (ofProg c) := by
  induction c generalizing s with
  | done x => exact .done ⟨h.post, .done⟩
  | fault e =>
    cases h with
    | act hmay s' hafter _ => exact .act hmay s' hafter fun r => r.elim
  | getsession k next ih =>
    cases h with
    | act hmay s' hafter hnext =>
      exact .act hmay s' hafter fun r => (ih r (hnext r)).mono fun _ _ h =>
        ⟨h.1, .getsession r h.2⟩
  | insertsession k next ih =>
    cases h with
    | act hmay s' hafter hnext =>
      exact .act hmay s' hafter fun r => (ih r (hnext r)).mono fun _ _ h =>
        ⟨h.1, .insertsession r h.2⟩
  | read a next ih =>
    cases h with
    | act hmay s' hafter hnext =>
      exact .act hmay s' hafter fun r => (ih r (hnext r)).mono fun _ _ h => ⟨h.1, .read r h.2⟩
  | modify a g next ih =>
    cases h with
    | act hmay s' hafter hnext =>
      exact .act hmay s' hafter fun r => (ih (hnext r)).mono fun _ _ h => ⟨h.1, .modify h.2⟩
  | clearsession a next ih =>
    cases h with
    | act hmay s' hafter hnext =>
      exact .act hmay s' hafter fun r => (ih (hnext r)).mono fun _ _ h =>
        ⟨h.1, .clearsession h.2⟩

end Rules

/-! ## The fetcher -/

section Fetcher

variable {env : Env} {i ret : Nat} {p : Mem}

theorem follows_tagHandshake {remote : Option OpennopId} {a : A}
    (h : F → inDomain env remote = none → Returns (lowerMss env p)) :
    Follows (rules Expected) (fun _ s => s = ⟨φ, σ, some a, F⟩) ⟨φ, σ, some a, F⟩
      (ofProg (tagHandshake env remote a p) : Job A B (Option Mem)) := by
  unfold tagHandshake
  cases hd : inDomain env remote with
  | none =>
    refine follows_lift (fun hF => h hF hd) fun o _ => ?_
    cases o with
    | none => exact .done rfl
    | some p' => exact follows_update (.done rfl)
  | some id => exact follows_update (.done rfl)

theorem follows_fetchSyn {remote : Option OpennopId}
    (h : F → inDomain env remote = none → Returns (lowerMss env p)) :
    Follows (rules Expected) (fun v s => v.Issued ∧ ∃ r, s = ⟨φ, σ, r, F⟩) ⟨φ, σ, o, F⟩
      (ofProg (fetchSyn env remote p : Prog A Verdict) : Job A B Verdict) := by
  have hof : ∀ r : Option A, Follows (rules Expected)
      (fun v s => v.Issued ∧ ∃ r, s = ⟨φ, σ, r, F⟩) ⟨φ, σ, r, F⟩
      (ofProg (fetchSynOf env remote p r) : Job A B Verdict) := by
    intro r
    cases r with
    | none => exact .done ⟨trivial, _, rfl⟩
    | some a =>
      refine follows_update (follows_update ?_)
      rw [ofProg_bind]
      refine (follows_tagHandshake h).bind ?_
      rintro _ _ rfl
      exact follows_update (.done ⟨trivial, _, rfl⟩)
  refine follows_lookup fun r => ?_
  cases r with
  | some a => exact hof (some a)
  | none => exact follows_insert hof

theorem follows_fetchSynAck {remote : Option OpennopId} {a : A}
    (h : F → inDomain env remote = none → Returns (lowerMss env p)) :
    Follows (rules Expected) (fun v s => v.Issued ∧ ∃ r, s = ⟨φ, σ, r, F⟩) ⟨φ, σ, some a, F⟩
      (ofProg (fetchSynAck env remote a p) : Job A B Verdict) := by
  refine follows_update ?_
  rw [ofProg_bind]
  refine (follows_tagHandshake h).bind ?_
  rintro _ _ rfl
  exact follows_update (.done ⟨trivial, _, rfl⟩)

theorem follows_recoverTag {remote : OpennopId} {a : A}
    (h : F → inDomain env (some remote) = none → Returns (setTag env p)) :
    Follows (rules Expected) (fun _ s => s = ⟨φ, σ, some a, F⟩) ⟨φ, σ, some a, F⟩
      (ofProg (recoverTag env remote a p) : Job A B Mem) := by
  unfold recoverTag
  cases hd : inDomain env (some remote) with
  | some id => exact follows_update (.done rfl)
  | none => exact follows_lift (fun hF => h hF hd) fun _ _ => follows_update (.done rfl)

theorem follows_getFreepacketBuffer (hi : i ≠ 0) :
    Follows (rules Expected) (fun x s => (∃ b, x = some b ∧
        s = ⟨.buffer i b, .wiped env i ret p b, o, F⟩) ∨ x = none ∧ s.phase = .never)
      ⟨.packet i, .fetching env i ret p, o, F⟩ (getFreepacketBuffer : Job A B (Option B)) := by
  -- the end of the function, with the buffer that was found
  have hwipe : ∀ b, Follows (rules Expected) (fun x s => (∃ b, x = some b ∧
        s = ⟨.buffer i b, .wiped env i ret p b, o, F⟩) ∨ x = none ∧ s.phase = .never)
      ⟨.buffer i b, .fetching env i ret p, o, F⟩
      (do perform (.wipe b); return some b : Job A B (Option B)) :=
    fun b => follows_act trivial fun _ => ⟨_, _, .wipe, .wipe, .done (.inl ⟨b, rfl, rfl⟩)⟩
  unfold getFreepacketBuffer
  refine follows_act trivial fun n => ?_
  by_cases hn : n > 0
  · refine ⟨_, _, .filled hn, .level, ?_⟩
    rw [if_pos hn]
    refine follows_act trivial fun x => ?_
    cases x with
    | none => exact ⟨_, _, .missing, .take, .done (.inr ⟨rfl, rfl⟩)⟩
    | some b => exact ⟨_, _, .take, .take, hwipe b⟩
  · obtain rfl : n = 0 := Nat.eq_zero_of_not_pos hn
    refine ⟨_, _, .low, .level, ?_⟩
    rw [if_neg (Nat.lt_irrefl 0)]
    refine follows_act trivial fun b => ⟨_, _, .allocate hi, .allocate, ?_⟩
    exact follows_act trivial fun _ => ⟨_, _, .account, .account, hwipe b⟩

theorem follows_setVerdict {v : Verdict} (hv : v.Issued)
    (h : (fetcherCallback env i ret true p : Prog A Verdict).Returns v) :
    Follows (rules Expected) (fun _ s => FetcherEnds s.phase)
      ⟨.packet i, .fetching env i ret p, o, F⟩ (perform (.setVerdict i v) : Job A B Unit) :=
  follows_last trivial fun _ => ⟨_, _, .answer hv, .answer h, .inl rfl⟩

theorem follows_handOver {b : B} {d : Mem} {a : A} (deoptimization : Bool)
    (h : ∀ s : Session, (fetcherCallback env i ret true p : Prog A Verdict).Returns
      (handed ⟨s.queue, deoptimization⟩ d)) :
    Follows (rules Expected) (fun _ s => FetcherEnds s.phase)
      ⟨.saved i b, .saved env i ret p b d, some a, F⟩
      (handOver deoptimization a b : Job A B Unit) :=
  follows_call (c := .read a) (fun _ h => congrArg some h) fun s =>
    follows_last (e := .queuePacket (.lane ⟨s.queue, deoptimization⟩) b) trivial fun _ =>
      ⟨_, _, .handOver, .handOver (h s), .inl rfl⟩

theorem follows_fetchDataTask {remote : Option OpennopId} (hi : i ≠ 0) {a : A}
    (h : ∀ v, (fetchData env remote ret true a p).Returns v →
      (fetcherCallback env i ret true p : Prog A Verdict).Returns v) :
    Follows (rules Expected) (fun _ s => FetcherEnds s.phase)
      ⟨.packet i, .fetching env i ret p, some a, F⟩
      (fetchDataTask env remote i ret a p : Job A B Unit) := by
  refine (follows_getFreepacketBuffer hi).bind ?_
  rintro x s (⟨b, rfl, rfl⟩ | ⟨rfl, hnever⟩)
  · refine follows_act trivial fun _ => ⟨_, _, .save, .save, ?_⟩
    -- the queue is the one that `fetchData` names
    cases hd : inDomain env remote with
    | none =>
      refine follows_handOver false fun s => h _ (.read s ?_)
      rw [hd]
      exact .done
    | some id =>
      refine follows_act trivial fun confirmed => ?_
      cases confirmed with
      | false => exact ⟨_, _, .forgotten, .forgotten, .done (.inl rfl)⟩
      | true =>
        refine ⟨_, _, .confirmed, .confirmed, follows_handOver true fun s => h _ (.read s ?_)⟩
        rw [hd]
        exact .done
  · exact .done (.inr hnever)

theorem follows_fetchRecoverTask {remote : OpennopId} (hi : i ≠ 0)
    (htag : F → inDomain env (some remote) = none → Returns (setTag env p))
    (h : ∀ v, (fetchRecover env remote ret true p : Prog A Verdict).Returns v →
      (fetcherCallback env i ret true p : Prog A Verdict).Returns v) :
    Follows (rules Expected) (fun _ s => FetcherEnds s.phase)
      ⟨.packet i, .fetching env i ret p, o, F⟩
      (fetchRecoverTask env remote i ret p : Job A B Unit) := by
  refine follows_call (c := .insertsession p.key) (fun _ h => h.elim) fun r => ?_
  cases r with
  | none => exact follows_setVerdict trivial (h _ (.insertsession none .done))
  | some a =>
    refine follows_call (c := .modify a _) (fun _ h => congrArg some h) fun _ => ?_
    refine (follows_returns (follows_recoverTag htag)).bind ?_
    rintro p' _ ⟨rfl, hp'⟩
    refine (follows_getFreepacketBuffer hi).bind ?_
    rintro x s (⟨b, rfl, rfl⟩ | ⟨rfl, hnever⟩)
    · refine follows_act trivial fun _ => ⟨_, _, .save, .save, follows_handOver true fun s => ?_⟩
      exact h _ (.insertsession (some a) (.modify (hp'.bind (.read s .done))))
    · exact .done (.inr hnever)

/-- **Every exit of `fetcher_callback`** issues a verdict or hands over the buffer, or leaves it. -/
theorem follows_fetcherTask (env : Env) (i ret : Nat) (p : Mem)
    (h : F → env.running → p.protocol = ipprotoTcp → i ≠ 0 → FetcherParses env p) :
    Follows (rules fun _ _ => True) (fun _ s => FetcherEnds s.phase)
      ⟨.packet i, .fetching env i ret p, none, F⟩ (fetcherTask env i ret p : Job A B Unit) := by
  unfold fetcherTask
  by_cases hrun : env.running
  swap
  · rw [if_neg hrun]
    exact follows_setVerdict trivial (by rw [fetcherCallback, if_neg hrun]; exact .done)
  rw [if_pos hrun]
  by_cases htcp : p.protocol = ipprotoTcp ∧ i ≠ 0
  swap
  · rw [if_neg htcp]
    exact follows_setVerdict trivial
      (by rw [fetcherCallback, if_pos hrun, if_neg htcp]; exact .done)
  rw [if_pos htcp]
  have hparses : F → FetcherParses env p := fun hF => h hF hrun htcp.1 htcp.2
  refine follows_exec (fun hF => (hparses hF).imp fun _ h => h.1) fun remote hremote => ?_
  have hmss : p.syn → F → inDomain env remote = none → Returns (lowerMss env p) := by
    intro hsyn hF hd
    obtain ⟨remote', hremote', hmss, -⟩ := hparses hF
    cases hremote.symm.trans hremote'
    exact hmss hd hsyn
  unfold fetchTcpTask
  by_cases hsyn : p.syn ∧ ¬ p.ack
  · rw [if_pos hsyn]
    refine (follows_returns (follows_fetchSyn (hmss hsyn.1))).bind ?_
    rintro v _ ⟨⟨hissued, r, rfl⟩, hv⟩
    refine follows_setVerdict hissued ?_
    rw [fetcherCallback, if_pos hrun, if_pos htcp]
    refine .lift hremote ?_
    rw [if_pos hsyn]
    exact hv
  rw [if_neg hsyn]
  obtain ⟨f, hf, hsome, hrecover, hnone⟩ :=
    fetcherCallback_lookup (A := A) ret true hrun htcp hsyn hremote
  refine follows_call (c := .getsession p.key) (fun _ h => h.elim) fun r => ?_
  have hfound : ∀ v, (f r).Returns v →
      (fetcherCallback env i ret true p : Prog A Verdict).Returns v :=
    fun v hv => hf ▸ .getsession r hv
  cases r with
  | some a =>
    rw [hsome] at hfound
    by_cases hack : p.syn ∧ p.ack
    · simp only [if_pos hack] at hfound ⊢
      refine (follows_returns (follows_fetchSynAck (hmss hack.1))).bind ?_
      rintro v _ ⟨⟨hissued, r, rfl⟩, hv⟩
      exact follows_setVerdict hissued (hfound v hv)
    · simp only [if_neg hack] at hfound ⊢
      exact follows_fetchDataTask htcp.2 hfound
  | none =>
    cases remote with
    | none =>
      rw [hnone rfl] at hfound
      exact follows_setVerdict trivial (hfound _ .done)
    | some remote =>
      rw [hrecover remote rfl] at hfound
      by_cases hrec : ¬ p.syn ∧ p.ack ∧ ¬ p.fin
      · simp only [if_pos hrec] at hfound ⊢
        refine follows_fetchRecoverTask htcp.2 (fun hF _ => ?_) hfound
        obtain ⟨remote', hremote', -, htag⟩ := hparses hF
        cases hremote.symm.trans hremote'
        exact htag (Option.some_ne_none remote)
      · simp only [if_neg hrec] at hfound ⊢
        exact follows_setVerdict trivial (hfound _ .done)

end Fetcher

/-! ## The processors -/

section Processor

variable {env : Env} {remote : Option OpennopId} {a : A} {k : Key} {p : Mem}

/-- The session is freed with the last call on it. -/
theorem follows_endSession (a : A) (p : Mem) :
    Follows (rules Expected) (fun _ s => ∃ r, s = ⟨φ, σ, r, F⟩) ⟨φ, σ, some a, F⟩
      (ofProg (endSession a p) : Job A B Unit) := by
  have hclear : Follows (rules Expected) (fun _ s => ∃ r, s = ⟨φ, σ, r, F⟩) ⟨φ, σ, some a, F⟩
      (ofProg (Prog.clear a) : Job A B Unit) :=
    follows_call (c := .clearsession a) (f := .done) (fun _ h => congrArg some h)
      fun _ => .done ⟨_, rfl⟩
  unfold endSession
  by_cases hrst : p.rst
  · rw [if_pos hrst]
    exact hclear
  · rw [if_neg hrst]
    by_cases hfin : p.fin
    · rw [if_pos hfin]
      refine follows_load fun s => ?_
      cases s.state with
      | established => exact follows_update (f := .done) (.done ⟨_, rfl⟩)
      | closing => exact hclear
      | _ => exact .done ⟨_, rfl⟩
    · rw [if_neg hfin]
      exact .done ⟨_, rfl⟩

theorem follows_optimizePacket (h : F → ∃ p', setTag env p = .ok p' ∧
      Returns (tcpCompress env.qlz env.compression true env.stateCompress p')) :
    Follows (rules Expected) (fun _ s => s = ⟨φ, σ, some a, F⟩) ⟨φ, σ, some a, F⟩
      (ofProg (optimizePacket env a k p) : Job A B Mem) := by
  refine follows_update (follows_lift (fun hF => (h hF).imp fun _ h => h.1) fun p' hp' =>
    follows_load fun s => ?_)
  by_cases hc : mayCompress env k p' s
  · rw [if_pos hc]
    refine follows_update (follows_lift (fun hF => ?_) fun _ _ => .done rfl)
    obtain ⟨q, hq, hret⟩ := h hF
    cases hp'.symm.trans hq
    exact hret
  · rw [if_neg hc]
    exact follows_update (.done rfl)

theorem follows_deoptimizePacket {remote : OpennopId}
    (h : F → ∃ flag, getTcpOption p compressed = .ok flag ∧
      (flag ≠ 0 → Returns (tcpDecompress env.qlz true env.stateDecompress p))) :
    Follows (rules Expected) (fun _ s => s = ⟨φ, σ, some a, F⟩) ⟨φ, σ, some a, F⟩
      (ofProg (deoptimizePacket env remote a k p) : Job A B (Mem × Bool)) := by
  refine follows_update (follows_lift (fun hF => (h hF).imp fun _ h => h.1) fun flag hflag => ?_)
  by_cases hne : flag ≠ 0
  · rw [if_pos hne]
    refine follows_load fun s => ?_
    by_cases hd : mayDecompress env k p s
    · rw [if_pos hd]
      refine follows_lift (fun hF => ?_) fun r _ => ?_
      · obtain ⟨flag', hflag', hret⟩ := h hF
        cases hflag.symm.trans hflag'
        exact hret hne
      · by_cases h0 : r.2 = 0
        · simp only [if_pos h0]
          exact .done rfl
        · simp only [if_neg h0]
          exact follows_update (.done rfl)
    · rw [if_neg hd]
      exact .done rfl
  · rw [if_neg hne]
    exact follows_update (.done rfl)

theorem follows_processPacket (hremote : remoteID env p = .ok remote)
    (h : F → WorkerParses env p) :
    Follows (rules Expected) (fun _ s => s = ⟨φ, σ, some a, F⟩) ⟨φ, σ, some a, F⟩
      (ofProg (processPacket env remote a p) : Job A B (Mem × Bool)) := by
  unfold processPacket
  by_cases hdata : ¬ p.syn ∧ p.ack ∧ ¬ p.fin
  · rw [if_pos hdata]
    cases hd : inDomain env remote with
    | none =>
      dsimp only
      rw [ofProg_bind]
      refine (follows_optimizePacket fun hF => ?_).bind ?_
      · obtain ⟨remote', hremote', hparse⟩ := h hF
        cases hremote.symm.trans hremote'
        exact (hparse hdata).1 hd
      · rintro _ _ rfl
        exact .done rfl
    | some id =>
      refine follows_deoptimizePacket fun hF => ?_
      obtain ⟨remote', hremote', hparse⟩ := h hF
      cases hremote.symm.trans hremote'
      exact (hparse hdata).2 (by rw [hd]; exact Option.some_ne_none id)
  · rw [if_neg hdata]
    exact .done rfl

theorem follows_processTask {q : Lane} (b : B) (i : Nat) (hremote : remoteID env p = .ok remote)
    (h : F → WorkerParses env p) :
    Follows (rules Expected) (fun _ s => ProcessorEnds q s.phase)
      ⟨.knows q b i, .working env q i p, some a, F⟩
      (processTask env remote b i a p : Job A B Unit) := by
  refine (follows_returns (follows_processPacket hremote h)).bind ?_
  rintro x _ ⟨rfl, hx⟩
  have hverdict := workerThread_found hremote hx
  refine follows_act trivial fun _ => ⟨_, _, .store, .store, ?_⟩
  by_cases hkept : x.2
  · rw [if_pos hkept]
    simp only [if_pos hkept] at hverdict
    refine (follows_endSession a x.1).bind ?_
    rintro _ _ ⟨r, rfl⟩
    refine follows_act trivial fun _ => ⟨_, _, .store, .store, ?_⟩
    refine follows_act trivial fun _ => ⟨_, _, .verdict trivial, .verdict hverdict, ?_⟩
    exact follows_last (e := .queuePacket .pool b) trivial fun _ =>
      ⟨_, _, .put, .other id, .inr ⟨b, rfl⟩⟩
  · rw [if_neg hkept]
    simp only [if_neg hkept] at hverdict
    refine follows_act trivial fun _ => ⟨_, _, .verdict trivial, .verdict hverdict, ?_⟩
    refine follows_act (e := .queuePacket .pool b) trivial fun _ => ⟨_, _, .put, .other id, ?_⟩
    refine follows_act trivial fun p' => ⟨_, _, .readFlags, .other id, ?_⟩
    exact (follows_endSession a p').mono fun _ _ ⟨_, hs⟩ => hs ▸ .inr ⟨b, rfl⟩

/-- **Every pass of `worker_thread`** that has a packet issues one verdict and returns the
buffer. -/
theorem follows_workerTask (env : Env) (q : Lane) :
    Follows (rules (Loads env)) (fun _ s => ProcessorEnds q s.phase)
      ⟨.idle q, .waiting env q, none, True⟩ (workerTask env q : Job A B Unit) := by
  refine follows_act trivial fun x => ?_
  cases x with
  | none => exact ⟨_, _, .nothing, .nothing, .done (.inl rfl)⟩
  | some b =>
    refine ⟨_, _, .dequeue, .dequeue, ?_⟩
    refine Follows.perform_bind ⟨nofun, fun _ => id⟩ fun x =>
      ⟨⟨.knows q b x.1, .working env q x.1 x.2, none, WorkerParses env x.2⟩,
        ⟨.load, .load, rfl, fun _ h => h⟩, ?_⟩
    refine follows_exec (fun h => h.imp fun _ h => h.1) fun remote hremote => ?_
    refine follows_call (c := .getsession x.2.key) (fun _ h => h.elim) fun r => ?_
    cases r with
    | none =>
      refine follows_act trivial fun _ =>
        ⟨_, _, .verdict trivial, .verdict (workerThread_missing hremote), ?_⟩
      exact follows_last (e := .queuePacket .pool b) trivial fun _ =>
        ⟨_, _, .put, .other id, .inr ⟨b, rfl⟩⟩
    | some a => exact follows_processTask b x.1 hremote id

end Processor

/-! ## The memory manager -/

theorem follows_allocatefreepacketbuffers (n k : Nat) :
    Follows (rules Expected) (fun _ s => s = ⟨.staged (k + n), .quiet, o, F⟩)
      ⟨.staged k, .quiet, o, F⟩ (allocatefreepacketbuffers n : Job A B Unit) := by
  induction n generalizing k with
  | zero => exact .done rfl
  | succ n ih =>
    refine follows_act trivial fun b => ⟨_, _, .new, .other id, ?_⟩
    refine follows_act trivial fun _ => ⟨_, _, .stage, .other id, ?_⟩
    rw [← Nat.add_assoc, Nat.add_right_comm]
    exact ih (k + 1)

theorem follows_moveStaged {k : Nat} (hk : 0 < k) :
    Follows (rules Expected) (fun _ s => ManagerEnds s.phase) ⟨.staged k, .quiet, o, F⟩
      (moveStaged : Job A B Unit) := by
  refine follows_act trivial fun _ => ⟨_, _, .takeQueued hk, .other id, ?_⟩
  refine follows_act trivial fun n => ?_
  by_cases hn : n = k
  · subst hn
    exact ⟨_, _, .addQueued, .other id, follows_last (e := .account n) trivial fun _ =>
      ⟨_, _, .count, .other id, .inl rfl⟩⟩
  · exact ⟨_, _, .miscounted hn, .other id, follows_last (e := .account n) trivial fun _ =>
      ⟨_, _, .never, .other id, .inr rfl⟩⟩

theorem follows_managerStart :
    Follows (rules fun _ _ => True) (fun _ s => ManagerEnds s.phase)
      ⟨.bootAllocated, .quiet, none, True⟩ (managerStart : Job A B Unit) := by
  refine follows_act trivial fun _ => ⟨_, _, .resetAllocated, .other id, ?_⟩
  refine follows_act trivial fun _ => ⟨_, _, .resetPool, .other id, ?_⟩
  refine follows_act trivial fun _ => ⟨_, _, .resetStaging, .other id, ?_⟩
  refine (follows_allocatefreepacketbuffers 1000 0).bind ?_
  rintro _ _ rfl
  exact follows_moveStaged (by omega)

theorem follows_managerPass :
    Follows (rules fun _ _ => True) (fun _ s => ManagerEnds s.phase)
      ⟨.staged 0, .quiet, none, True⟩ (managerPass : Job A B Unit) := by
  refine follows_act trivial fun _ => ⟨_, _, .level, .other id, ?_⟩
  refine (follows_allocatefreepacketbuffers 100 0).bind ?_
  rintro _ _ rfl
  exact follows_moveStaged (by omega)

end Job

end Opennop
