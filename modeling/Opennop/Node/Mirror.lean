import Opennop.Node.Relied

/-!
# The path seen from the other end

The results about compressed packets are about those of A on their way to the server. What A is to
the client, C is to the server: with the nodes, the sides and the directions exchanged, a run of the
path is a run of the mirrored path (`step_mirror`), so that the results hold for the packets of C as
well.
-/

namespace Opennop

@[simp] theorem Side.other_other (side : Side) : side.other.other = side := by cases side <;> rfl

@[simp] theorem Hop.other_other (h : Hop) : h.other.other = h := by cases h <;> rfl

theorem Hop.other_eq_iff {h h' : Hop} : h.other = h'.other ↔ h = h' :=
  by cases h <;> cases h' <;> decide

def Datagram.mirror (x : Datagram) : Datagram := { x with entry := x.entry.other }

def Waiting.mirror (w : Waiting) : Waiting := { w with packet := w.packet.mirror }

def Delivery.mirror (y : Delivery) : Delivery := { y with packet := y.packet.mirror }

def Net.mirror (n : Net) : Net where
  record h := n.record h.other
  waiting h := (n.waiting h.other).map Waiting.mirror
  wire := n.wire.map Datagram.mirror
  delivered := n.delivered.map Delivery.mirror
  down := n.down

def Path.mirror (P : Path) : Path where
  env h := P.env h.other
  key := P.key
  client := P.client.other

def Path.Action.mirror : Path.Action → Path.Action
  | .send entry p f => .send entry.other p f
  | .fetch i f => .fetch i f
  | .lose i => .lose i
  | .work h i reread => .work h.other i reread
  | .sweep h => .sweep h.other

theorem update_mirror {α β : Type} (F : α → β) (g : Hop → α) (h : Hop) (v : α) :
    (fun k => F (Function.update g h v k.other)) = Function.update
    (fun k => F (g k.other)) h.other (F v) := by
  funext k
  by_cases hk : k = h.other
  · subst hk
    rw [Function.update_self, Hop.other_other, Function.update_self]
  · rw [Function.update_of_ne hk, Function.update_of_ne]
    intro heq
    exact hk (by rw [← heq, Hop.other_other])

namespace Path

variable (P : Path)

theorem side_mirror (h : Hop) : P.mirror.side h = P.side h.other := by
  cases h with
  | a => rfl
  | c => exact Side.other_other P.client

theorem settle_mirror (n : Net) (h : Hop) (x : Datagram) (packed : Prop) (unpacked : Verdict → Prop)
    (r : Exec (Option Session × Verdict)) :
    (n.settle h x packed unpacked r).mirror =
    n.mirror.settle h.other x.mirror packed unpacked r := by
  cases r with
  | error e => rfl
  | ok r =>
    obtain ⟨st, v⟩ := r
    dsimp only [Net.settle, Net.mirror, Datagram.mirror]
    simp only [Hop.other_other, Hop.other_eq_iff]
    congr 1
    · exact update_mirror id n.record h st
    · rw [update_mirror (List.map Waiting.mirror)]
      congr 1
      cases v.copied <;> simp [Waiting.mirror, Datagram.mirror]
    · by_cases hx : h = x.entry
      · cases v.sent x.mem <;> simp [hx, Datagram.mirror]
      · cases v.sent x.mem <;> simp [hx]
    · by_cases hx : h = x.entry
      · cases v.sent x.mem <;> simp [hx]
      · cases v.sent x.mem <;> simp [hx, Delivery.mirror, Datagram.mirror]

theorem fetch_mirror (n : Net) (h : Hop) (x : Datagram) (f : Fetch) :
    P.mirror.fetch n.mirror h.other x.mirror f = (P.fetch n h x f).mirror := by
  unfold fetch
  rw [settle_mirror]
  dsimp only [mirror, Net.mirror, Datagram.mirror]
  rw [Hop.other_other]

theorem work_mirror (n : Net) (h : Hop) (w : Waiting) (reread : Mem) :
    P.mirror.work n.mirror h.other w.mirror reread = (P.work n h w reread).mirror := by
  unfold work
  rw [settle_mirror]
  dsimp only [mirror, Net.mirror, Waiting.mirror, Datagram.mirror]
  rw [Hop.other_other]

theorem eraseWire_mirror (n : Net) (i : Nat) : { n with wire := n.wire.eraseIdx i }.mirror =
    { n.mirror with wire := n.mirror.wire.eraseIdx i } := by
  dsimp only [Net.mirror]
  rw [List.eraseIdx_map]

theorem eraseWaiting_mirror (n : Net) (h : Hop) (i : Nat) :
    { n with waiting := Function.update n.waiting h ((n.waiting h).eraseIdx i) }.mirror =
      { n.mirror with
        waiting := Function.update n.mirror.waiting h.other
          ((n.mirror.waiting h.other).eraseIdx i) } := by
  dsimp only [Net.mirror]
  rw [update_mirror (List.map Waiting.mirror), Hop.other_other, List.eraseIdx_map]

/-- **One action, seen from the other end.** -/
theorem step_mirror (n : Net) (a : Action) :
    P.mirror.step n.mirror a.mirror = (P.step n a).mirror := by
  by_cases hdown : n.down = true
  · have hsame : P.step n a = n := by cases a <;> exact if_pos hdown
    have hsame' : P.mirror.step n.mirror a.mirror = n.mirror := by cases a <;> exact if_pos hdown
    rw [hsame, hsame']
  have hdown' : ¬ n.mirror.down = true := hdown
  cases a with
  | send entry p f =>
    dsimp only [Action.mirror, step]
    rw [if_neg hdown, if_neg hdown', ← fetch_mirror]
    rfl
  | fetch i f =>
    have hget : n.mirror.wire[i]? = n.wire[i]?.map Datagram.mirror := List.getElem?_map
    dsimp only [Action.mirror, step]
    rw [if_neg hdown, if_neg hdown', hget]
    cases n.wire[i]? with
    | none => rfl
    | some x =>
      dsimp only [Option.map_some]
      rw [← eraseWire_mirror, ← fetch_mirror]
      rfl
  | lose i =>
    dsimp only [Action.mirror, step]
    rw [if_neg hdown, if_neg hdown', eraseWire_mirror]
  | work h i reread =>
    have hget : (n.mirror.waiting h.other)[i]? = (n.waiting h)[i]?.map Waiting.mirror := by
      dsimp only [Net.mirror]
      rw [Hop.other_other, List.getElem?_map]
    dsimp only [Action.mirror, step]
    rw [if_neg hdown, if_neg hdown', hget]
    cases (n.waiting h)[i]? with
    | none => rfl
    | some w =>
      dsimp only [Option.map_some]
      rw [← eraseWaiting_mirror, work_mirror]
  | sweep h =>
    have hrecord := update_mirror id n.record h none
    dsimp only [Action.mirror, step, id] at hrecord ⊢
    rw [if_neg hdown, if_neg hdown']
    dsimp only [Net.mirror]
    rw [hrecord]

end Path

end Opennop
