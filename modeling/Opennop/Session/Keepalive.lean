import Opennop.Session.Refine

/-!
# The keepalives of a sweep (`opennopd/subsystems/sessioncleanup.c`)

`cleanuplist` sends a keepalive for a session that has been silent since the last sweep, towards its
larger address if that side was silent, else towards the smaller one. `cleanuplistSends` is the
sweep with these calls: it leaves the same table as `cleanuplist` and sends what the sessions of the
bucket call for, in the order of the bucket.
-/

namespace Opennop

/-- The arguments of a call of `sendkeepalive`. -/
structure Keepalive where
  saddr : Nat
  source : Nat
  seq : Nat
  daddr : Nat
  dest : Nat
  ackSeq : Nat
  deriving DecidableEq, Repr

/-- The keepalive `cleanuplist` sends for a session that is not dead. -/
def keepalive (s : Session) : Option Keepalive :=
  if s.larger.sequence = s.larger.previoussequence then
    some ⟨s.smaller.address, s.smaller.port, s.smaller.sequence,
      s.larger.address, s.larger.port, s.larger.sequence⟩
  else if s.smaller.sequence = s.smaller.previoussequence then
    some ⟨s.larger.address, s.larger.port, s.larger.sequence,
      s.smaller.address, s.smaller.port, s.smaller.sequence⟩
  else none

theorem deadcounter_age (s : Session) :
    (age s).deadcounter = if (keepalive s).isSome then (s.deadcounter + 1) % 256 else 0 := by
  unfold age keepalive
  dsimp only
  split
  · rfl
  · split <;> rfl

def sendsFor (s : Session) : List Keepalive :=
  if s.deadcounter > 2 then [] else (keepalive s).toList

section Sends

variable {A : Type} [DecidableEq A]

/-- One pass of the loop of `cleanuplist`, with what was sent so far. -/
def cleanuplistSendsPass : (Table A × A) × List Keepalive →
    Exec (Pass ((Table A × A) × List Keepalive) (Table A × List Keepalive))
  | ((t, cur), sent) => do
    let n ← t.load cur
    match ← cleanuplistPass (t, cur) with
    | .again s => return .again (s, sent ++ sendsFor n.session)
    | .done t => return .done (t, sent ++ sendsFor n.session)

/-- `cleanuplist(getsessionhead(b))`, with the calls of `sendkeepalive`. -/
def cleanuplistSends [Fintype A] (t : Table A) (b : Nat) : Exec (Table A × List Keepalive) :=
  match (t.bucket b).next with
  | none => .ok (t, [])
  | some a => loop cleanuplistSendsPass (Fintype.card A + 1) ((t, a), [])

end Sends

def Store.sends {A : Type} (σ : Store A) (b : Nat) : List Keepalive :=
  (σ.filter fun e => hashOf e.2.key = b).flatMap fun e => sendsFor e.2

namespace Refines

variable {A : Type} [DecidableEq A] {t : Table A} {σ : Store A}

theorem mem_sweepOne {a : A} {e : A × Session} (he : e ∈ σ) (hne : e.1 ≠ a) : e ∈ sweepOne σ a :=
  List.mem_filterMap.2 ⟨e, he, if_neg hne⟩

variable [Fintype A] (hcard : Fintype.card A < 4294967296)
include hcard

theorem cleanuplistSends_loop {b : Nat} {es : List (A × Session)} :
    ∀ {t : Table A} {σ : Store A} {l₁ : List A} {e : A × Session} {fuel : Nat}
      (sent : List Keepalive), Refines t σ → σ.inBucket b = l₁ ++ (e :: es).map Prod.fst →
      (∀ x ∈ e :: es, x ∈ σ) → es.length < fuel →
      ∃ t', loop cleanuplistPass fuel (t, e.1) = .ok t' ∧
        loop cleanuplistSendsPass fuel ((t, e.1), sent) =
          .ok (t', sent ++ (e :: es).flatMap fun x => sendsFor x.2) := by
  induction es with
  | nil =>
    intro t σ l₁ e fuel sent h hl hmem hfuel
    obtain ⟨t', -, -, -, hpass⟩ := h.cleanuplistPass_eq hcard hl
    change cleanuplistPass (t, e.1) = .ok (.done t') at hpass
    obtain ⟨fuel, rfl⟩ : ∃ m, fuel = m + 1 := ⟨fuel - 1, by omega⟩
    obtain ⟨n, hn, hs⟩ := h.heap_of_mem (hmem e (by simp))
    refine ⟨t', loop_done hpass, loop_done ?_⟩
    unfold cleanuplistSendsPass
    simp only [Table.load, hn, ok_bind, hpass, hs]
    rw [List.flatMap_singleton]
    rfl
  | cons x es ih =>
    intro t σ l₁ e fuel sent h hl hmem hfuel
    obtain ⟨t', l₁', h', hl', hpass⟩ := h.cleanuplistPass_eq hcard hl
    change cleanuplistPass (t, e.1) = .ok (.again (t', x.1)) at hpass
    obtain ⟨fuel, rfl⟩ : ∃ m, fuel = m + 1 := ⟨fuel - 1, by omega⟩
    obtain ⟨n, hn, hs⟩ := h.heap_of_mem (hmem e (by simp))
    -- the sessions that follow are at other addresses, so their records are the same after this
    -- pass
    have hmem' : ∀ y ∈ x :: es, y ∈ sweepOne σ e.1 := by
      intro y hy
      refine mem_sweepOne (hmem y (List.mem_cons_of_mem e hy)) fun heq => ?_
      have hnodup := (h.links b).nodup
      rw [hl, List.map_cons, List.nodup_append] at hnodup
      exact (List.nodup_cons.1 hnodup.2.1).1 (heq ▸ List.mem_map_of_mem hy)
    have hsends : cleanuplistSendsPass ((t, e.1), sent) =
        .ok (.again ((t', x.1), sent ++ sendsFor e.2)) := by
      unfold cleanuplistSendsPass
      simp only [Table.load, hn, ok_bind, hpass, hs]
      rfl
    rw [List.length_cons] at hfuel
    obtain ⟨t'', hloop, hsent⟩ := ih (sent ++ sendsFor e.2) h' hl' hmem'
      (Nat.lt_of_succ_lt_succ hfuel)
    refine ⟨t'', by rw [loop_again hpass]; exact hloop, ?_⟩
    rw [loop_again hsends, hsent, List.append_assoc]
    rfl

/-- **The sweep with its keepalives** leaves the table of the sweep and sends for every session of
the bucket what its record calls for. -/
theorem cleanuplistSends (h : Refines t σ) (b : Nat) :
    ∃ t', Opennop.cleanuplist t b = .ok t' ∧
      Opennop.cleanuplistSends t b = .ok (t', σ.sends b) ∧ Refines t' (σ.sweep b) := by
  obtain ⟨t', ht', h'⟩ := h.cleanuplist hcard b
  refine ⟨t', ht', ?_, h'⟩
  have hlen := length_inBucket_le σ b
  have hle := h.length_le
  have hhead := (h.links b).head_eq
  unfold Opennop.cleanuplistSends Store.sends
  unfold Opennop.cleanuplist at ht'
  cases hes : σ.filter fun e => hashOf e.2.key = b with
  | nil =>
    have hl : σ.inBucket b = [] := by
      unfold Store.inBucket
      rw [hes]
      rfl
    rw [hl] at hhead
    rw [hhead] at ht' ⊢
    rw [Except.ok.inj ht']
    rfl
  | cons e es =>
    have hl : σ.inBucket b = [] ++ (e :: es).map Prod.fst := by
      unfold Store.inBucket
      rw [hes]
      rfl
    rw [hl] at hhead hlen
    rw [hhead] at ht' ⊢
    have hmem : ∀ x ∈ e :: es, x ∈ σ := fun x hx => List.mem_of_mem_filter (hes ▸ hx)
    rw [List.nil_append, List.length_map, List.length_cons] at hlen
    obtain ⟨t'', hloop, hsent⟩ := cleanuplistSends_loop hcard [] h hl hmem
      (show es.length < Fintype.card A + 1 by omega)
    obtain rfl : t' = t'' := Except.ok.inj (ht'.symm.trans hloop)
    exact hsent

end Refines

end Opennop
