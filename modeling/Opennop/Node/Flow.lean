import Mathlib.Algebra.Order.Group.Multiset
import Mathlib.Tactic.Abel
import Opennop.Node.Mirror

/-!
# Packets followed along the path

`Flow` is the path of `Net` with what is needed to say what the endpoints get for what they send:
the packets of the endpoints in the order they were sent, the place in this order along with every
packet on its way, and the bytes that are delivered. None of it is read by a node: without it a run
is a run of `Net` (`net_track`).
-/

namespace Opennop

structure Flow where
  /-- What the endpoints have sent, and to which node. -/
  sent : List (Hop × Mem)
  record : Hop → Option Session
  waiting : Hop → List (Nat × Waiting)
  wire : List (Nat × Datagram)
  /-- The bytes that an endpoint got are behind the note about them. -/
  delivered : List (Nat × Delivery × Mem)
  down : Bool

namespace Flow

def init : Flow := ⟨[], fun _ => none, fun _ => [], [], [], false⟩

def net (f : Flow) : Net where
  record := f.record
  waiting h := (f.waiting h).map Prod.snd
  wire := f.wire.map Prod.snd
  delivered := f.delivered.map fun y => y.2.1
  down := f.down

/-- What became of the packet `x` at the node `h`. -/
def settle (f : Flow) (h : Hop) (x : Nat × Datagram) (packed : Prop) (unpacked : Verdict → Prop) :
    Exec (Option Session × Verdict) → Flow
  | .error _ => { f with down := true }
  | .ok (st, v) =>
    { f with
      record := Function.update f.record h st
      waiting := Function.update f.waiting h
        (f.waiting h ++ (v.copied.map fun q => (x.1, Waiting.mk x.2 q)).toList)
      wire := f.wire ++
        if h = x.2.entry then ((v.sent x.2.mem).map fun q => (x.1, ⟨x.2.entry, q, packed⟩)).toList
        else []
      delivered := f.delivered ++
        if h = x.2.entry then []
        else ((v.sent x.2.mem).map fun q => (x.1, ⟨x.2, unpacked v⟩, q)).toList }

/-- The packets on their way and those that have arrived, by their number. -/
def serials (f : Flow) : Multiset Nat :=
  ↑((f.waiting .a).map Prod.fst) + ↑((f.waiting .c).map Prod.fst) + ↑(f.wire.map Prod.fst) +
    ↑(f.delivered.map Prod.fst)

end Flow

namespace Path

variable (P : Path)

def trackFetch (f : Flow) (h : Hop) (x : Nat × Datagram) (g : Fetch) : Flow :=
  f.settle h x x.2.packed (fun _ => False)
    (fetcherRecord (P.env h) (g.number + 1) x.2.mem.totLen g.buffer
    (g.queue.map (newSession P.key)) x.2.mem (f.record h))

def trackWork (f : Flow) (h : Hop) (w : Nat × Waiting) (reread : Mem) : Flow :=
  f.settle h (w.1, w.2.packet) (w.2.packet.packed ∨ Packs (P.env h) (f.record h) w.2.copy)
    (Unpacks (P.env h) (f.record h) w.2.copy) (workerRecord (P.env h) reread w.2.copy (f.record h))

def track (f : Flow) : Action → Flow
  | .send entry p g =>
    if f.down then f else
      P.trackFetch { f with sent := f.sent ++ [(entry, p)] } entry
        (f.sent.length, ⟨entry, p, False⟩) g
  | .fetch i g =>
    if f.down then f else
      match f.wire[i]? with
      | some x => P.trackFetch { f with wire := f.wire.eraseIdx i } x.2.entry.other x g
      | none => f
  | .lose i => if f.down then f else { f with wire := f.wire.eraseIdx i }
  | .work h i reread =>
    if f.down then f else
      match (f.waiting h)[i]? with
      | some w =>
        P.trackWork
          { f with waiting := Function.update f.waiting h ((f.waiting h).eraseIdx i) } h w reread
      | none => f
  | .sweep h => if f.down then f else { f with record := Function.update f.record h none }

end Path

/-! ## The path underneath -/

namespace Flow

variable (f : Flow)

theorem map_update {α β : Type} (F : α → β) (g : Hop → α) (h : Hop) (v : α) :
    (fun k => F (Function.update g h v k)) = Function.update (fun k => F (g k)) h (F v) := by
  funext k
  by_cases hk : k = h
  · subst hk
    rw [Function.update_self, Function.update_self]
  · rw [Function.update_of_ne hk, Function.update_of_ne hk]

theorem net_settle (h : Hop) (x : Nat × Datagram) (packed : Prop) (unpacked : Verdict → Prop)
    (r : Exec (Option Session × Verdict)) :
    (f.settle h x packed unpacked r).net = f.net.settle h x.2 packed unpacked r := by
  cases r with
  | error e => rfl
  | ok r =>
    obtain ⟨st, v⟩ := r
    dsimp only [settle, net, Net.settle]
    congr 1
    · rw [map_update (List.map Prod.snd)]
      congr 1
      cases v.copied <;> simp
    · by_cases hx : h = x.2.entry
      · cases v.sent x.2.mem <;> simp [hx]
      · simp [hx]
    · by_cases hx : h = x.2.entry
      · simp [hx]
      · cases v.sent x.2.mem <;> simp [hx]

theorem net_eraseWaiting (h : Hop) (i : Nat) :
    { f with waiting := Function.update f.waiting h ((f.waiting h).eraseIdx i) }.net =
      { f.net with waiting := Function.update f.net.waiting h ((f.net.waiting h).eraseIdx i) } := by
  dsimp only [net]
  rw [map_update (List.map Prod.snd), List.eraseIdx_map]

theorem net_eraseWire (i : Nat) :
    { f with wire := f.wire.eraseIdx i }.net = { f.net with wire := f.net.wire.eraseIdx i } := by
  dsimp only [net]
  rw [List.eraseIdx_map]

end Flow

/-- **Following the packets changes nothing.** -/
theorem Path.net_track (P : Path) (f : Flow) (a : Path.Action) :
    (P.track f a).net = P.step f.net a := by
  by_cases hdown : f.down = true
  · have hsame : P.track f a = f := by cases a <;> exact if_pos hdown
    have hsame' : P.step f.net a = f.net := by cases a <;> exact if_pos hdown
    rw [hsame, hsame']
  have hdown' : ¬ f.net.down = true := hdown
  cases a with
  | send entry p g =>
    dsimp only [track, step]
    rw [if_neg hdown, if_neg hdown']
    exact Flow.net_settle ..
  | fetch i g =>
    have hget : f.net.wire[i]? = f.wire[i]?.map Prod.snd := List.getElem?_map
    dsimp only [track, step]
    rw [if_neg hdown, if_neg hdown', hget]
    cases f.wire[i]? with
    | none => rfl
    | some x =>
      dsimp only [Option.map_some, trackFetch]
      rw [← Flow.net_eraseWire]
      exact Flow.net_settle ..
  | lose i =>
    dsimp only [track, step]
    rw [if_neg hdown, if_neg hdown', Flow.net_eraseWire]
  | work h i reread =>
    have hget : (f.net.waiting h)[i]? = (f.waiting h)[i]?.map Prod.snd := List.getElem?_map
    dsimp only [track, step]
    rw [if_neg hdown, if_neg hdown', hget]
    cases (f.waiting h)[i]? with
    | none => rfl
    | some w =>
      dsimp only [Option.map_some, trackWork]
      rw [← Flow.net_eraseWaiting]
      exact Flow.net_settle ..
  | sweep h =>
    dsimp only [track, step]
    rw [if_neg hdown, if_neg hdown']
    rfl

/-! ## Every packet is in one place -/

theorem Verdict.copied_or_sent (v : Verdict) (p : Mem) : v.copied = none ∨ v.sent p = none := by
  cases v with
  | optimize _ _ => exact .inr rfl
  | deoptimize _ _ => exact .inr rfl
  | _ => exact .inl rfl

namespace Flow

variable (f : Flow)

theorem serials_settle_eq (h : Hop) (x : Nat × Datagram) (packed : Prop) (unpacked : Verdict → Prop)
    (st : Option Session) (v : Verdict) :
    (f.settle h x packed unpacked (.ok (st, v))).serials =
      f.serials + ↑(v.copied.map fun _ => x.1).toList +
        ↑((v.sent x.2.mem).map fun _ => x.1).toList := by
  have hcopied : (v.copied.map fun q => (x.1, Waiting.mk x.2 q)).toList.map Prod.fst =
      (v.copied.map fun _ => x.1).toList := by
    cases v.copied <;> rfl
  have hwire : (if h = x.2.entry then
        ((v.sent x.2.mem).map fun q => (x.1, (⟨x.2.entry, q, packed⟩ : Datagram))).toList
          else []).map Prod.fst =
      if h = x.2.entry then ((v.sent x.2.mem).map fun _ => x.1).toList else [] := by
    cases v.sent x.2.mem <;> split <;> rfl
  have hdelivered : (if h = x.2.entry then [] else
        ((v.sent x.2.mem).map fun q => (x.1, (⟨x.2, unpacked v⟩ : Delivery), q)).toList).map
          Prod.fst =
      if h = x.2.entry then [] else ((v.sent x.2.mem).map fun _ => x.1).toList := by
    cases v.sent x.2.mem <;> split <;> rfl
  dsimp only [serials, settle]
  rw [List.map_append, List.map_append, hwire, hdelivered, ← Multiset.coe_add, ← Multiset.coe_add]
  have hone : ∀ l : List Nat, ((if h = x.2.entry then l else [] : List Nat) : Multiset Nat) +
      ↑(if h = x.2.entry then [] else l) = ↑l := by
    intro l
    split
    · exact Multiset.add_zero _
    · exact Multiset.zero_add _
  rw [← hone ((v.sent x.2.mem).map fun _ => x.1).toList]
  cases h with
  | a =>
    rw [Function.update_self, Function.update_of_ne (by decide), List.map_append, hcopied,
      ← Multiset.coe_add]
    abel
  | c =>
    rw [Function.update_self, Function.update_of_ne (by decide), List.map_append, hcopied,
      ← Multiset.coe_add]
    abel

theorem serials_settle (h : Hop) (x : Nat × Datagram) (packed : Prop) (unpacked : Verdict → Prop)
    (st : Option Session) (v : Verdict) :
    (f.settle h x packed unpacked (.ok (st, v))).serials ≤ x.1 ::ₘ f.serials := by
  have hle : ∀ o : Option Mem,
      (((o.map fun _ => x.1).toList : List Nat) : Multiset Nat) ≤ {x.1} := by
    intro o
    cases o with
    | none => exact Multiset.zero_le _
    | some q => exact le_rfl
  rw [serials_settle_eq, ← Multiset.singleton_add, Multiset.add_comm {x.1}]
  rcases v.copied_or_sent x.2.mem with hc | hs
  · rw [hc, Option.map_none, Option.toList_none, Multiset.coe_nil, Multiset.add_zero]
    exact add_le_add_right (hle _) _
  · rw [hs, Option.map_none, Option.toList_none, Multiset.coe_nil, Multiset.add_zero]
    exact add_le_add_right (hle _) _

theorem coe_map_eraseIdx {α : Type} {l : List (Nat × α)} {i : Nat} {x : Nat × α}
    (h : l[i]? = some x) :
    ((l.map Prod.fst : List Nat) : Multiset Nat) = x.1 ::ₘ ↑((l.eraseIdx i).map Prod.fst) := by
  obtain ⟨hi, hx⟩ := List.getElem?_eq_some_iff.1 h
  have hperm := (List.getElem_cons_eraseIdx_perm hi).map Prod.fst
  rw [hx, List.map_cons] at hperm
  exact (Multiset.coe_eq_coe.2 hperm).symm

theorem serials_eraseWire {i : Nat} {x : Nat × Datagram} (h : f.wire[i]? = some x) :
    f.serials = x.1 ::ₘ { f with wire := f.wire.eraseIdx i }.serials := by
  unfold serials
  dsimp only
  rw [coe_map_eraseIdx h, Multiset.add_cons, Multiset.cons_add]

theorem serials_eraseWaiting {h : Hop} {i : Nat} {w : Nat × Waiting}
    (hw : (f.waiting h)[i]? = some w) :
    f.serials = w.1 ::ₘ
      { f with waiting := Function.update f.waiting h ((f.waiting h).eraseIdx i) }.serials := by
  unfold serials
  dsimp only
  cases h with
  | a =>
    rw [Function.update_self, Function.update_of_ne (by decide), coe_map_eraseIdx hw,
      Multiset.cons_add, Multiset.cons_add, Multiset.cons_add]
  | c =>
    rw [Function.update_self, Function.update_of_ne (by decide), coe_map_eraseIdx hw,
      Multiset.add_cons, Multiset.cons_add, Multiset.cons_add]

end Flow

end Opennop
