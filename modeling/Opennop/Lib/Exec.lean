import Mathlib.Tactic.Common

/-!
# Executions that may not return

C code that loops forever or touches memory it must not touch has no result. `Exec α` is the outcome
of a call: a value, or the reason why there is none. Loops are run with a bound on the number of
passes (`loop`); a model chooses a bound that every ending run keeps, so that running out of passes
means that the loop does not end.

Three rules carry the proofs about loops: `loop_total` (a measure goes down, so the loop ends, with
what the invariant says at the end), `loop_together` (the same for two loops side by side) and
`Post.loop` (whatever an ending run returns, the invariant holds of it).
-/

namespace Opennop

/-- Why a call does not return. -/
inductive Fault where
  /-- A loop never ends. -/
  | hang
  /-- A null pointer is used, or a block operation gets a negative length. -/
  | segv
  deriving DecidableEq, Repr

abbrev Exec := Except Fault

/-- The end of one pass of a loop: go on from a new state, or leave with a result. -/
inductive Pass (σ α : Type) where
  | again (s : σ)
  | done (a : α)
  deriving Repr

/-- The state with which a pass goes on has `I`, the result with which it leaves has `Q`. -/
def Pass.Sat {σ α : Type} (I : σ → Prop) (Q : α → Prop) : Pass σ α → Prop
  | .again s => I s
  | .done a => Q a

def loop {σ α : Type} (body : σ → Exec (Pass σ α)) : Nat → σ → Exec α
  | 0, _ => .error .hang
  | n + 1, s =>
    match body s with
    | .error e => .error e
    | .ok (.done a) => .ok a
    | .ok (.again s') => loop body n s'

section Loop

variable {σ α : Type} {body : σ → Exec (Pass σ α)}

theorem loop_done {n : Nat} {s : σ} {a : α} (h : body s = .ok (.done a)) :
    loop body (n + 1) s = .ok a := by
  simp [loop, h]

theorem loop_again {n : Nat} {s s' : σ} (h : body s = .ok (.again s')) :
    loop body (n + 1) s = loop body n s' := by
  simp [loop, h]

/-- A loop whose passes keep `I`, go down in `μ` while they go on and give `Q` when they leave,
ends with `Q`. -/
theorem loop_total {I : σ → Prop} {Q : α → Prop} (μ : σ → Nat)
    (hpass : ∀ s, I s → (∃ s', body s = .ok (.again s') ∧ I s' ∧ μ s' < μ s) ∨
      ∃ a, body s = .ok (.done a) ∧ Q a) :
    ∀ {n : Nat} {s : σ}, I s → μ s < n → ∃ a, loop body n s = .ok a ∧ Q a := by
  intro n
  induction n with
  | zero => intro s _ hn; omega
  | succ n ih =>
    intro s hs hn
    rcases hpass s hs with ⟨s', hb, hs', hμ⟩ | ⟨a, hb, ha⟩
    · rw [loop_again hb]
      exact ih hs' (by omega)
    · exact ⟨a, loop_done hb, ha⟩

/-- Two loops that make their passes together: while the first goes on the second does, and what
holds between the two states holds between the results. -/
theorem loop_together {τ β : Type} {body' : τ → Exec (Pass τ β)} {I : σ → τ → Prop}
    {Q : α → β → Prop}
    (μ : σ → Nat)
    (hpass : ∀ s t, I s t →
      (∃ s' t', body s = .ok (.again s') ∧ body' t = .ok (.again t') ∧ I s' t' ∧ μ s' < μ s) ∨
      ∃ a b, body s = .ok (.done a) ∧ body' t = .ok (.done b) ∧ Q a b) :
    ∀ {n : Nat} {s : σ} {t : τ}, I s t → μ s < n →
      ∃ a b, loop body n s = .ok a ∧ loop body' n t = .ok b ∧ Q a b := by
  intro n
  induction n with
  | zero => intro s t _ hn; omega
  | succ n ih =>
    intro s t hst hn
    rcases hpass s t hst with ⟨s', t', hs, ht, hst', hμ⟩ | ⟨a, b, hs, ht, hab⟩
    · rw [loop_again hs, loop_again ht]
      exact ih hst' (by omega)
    · exact ⟨a, b, loop_done hs, loop_done ht, hab⟩

end Loop

/-! ## What a call returns when it returns -/

/-- Every value the call returns satisfies `Q`. -/
def Post {α : Type} (x : Exec α) (Q : α → Prop) : Prop := ∀ a, x = .ok a → Q a

namespace Post

variable {α β σ : Type}

theorem ok {a : α} {Q : α → Prop} (h : Q a) : Post (.ok a) Q := by
  intro b hb
  cases hb
  exact h

theorem error {e : Fault} {Q : α → Prop} : Post (.error e) Q := by
  intro a h
  cases h

theorem mono {x : Exec α} {P Q : α → Prop} (h : Post x P) (hPQ : ∀ a, P a → Q a) : Post x Q :=
  fun a ha => hPQ a (h a ha)

theorem bind {x : Exec α} {f : α → Exec β} {P : α → Prop} {Q : β → Prop} (hx : Post x P)
    (hf : ∀ a, P a → Post (f a) Q) : Post (x >>= f) Q := by
  intro b hb
  cases hxa : x with
  | error e => rw [hxa] at hb; cases hb
  | ok a =>
    rw [hxa] at hb
    exact hf a (hx a hxa) b hb

/-- A loop whose passes keep `I` and give `Q` when they leave returns only values with `Q`. -/
theorem loop {body : σ → Exec (Pass σ α)} {I : σ → Prop} {Q : α → Prop}
    (hpass : ∀ s, I s → Post (body s) (Pass.Sat I Q)) :
    ∀ {n : Nat} {s : σ}, I s → Post (Opennop.loop body n s) Q := by
  intro n
  induction n with
  | zero => intro s _; exact error
  | succ n ih =>
    intro s hs a ha
    unfold Opennop.loop at ha
    have hb := hpass s hs
    cases hbody : body s with
    | error e => rw [hbody] at ha; cases ha
    | ok r =>
      have hr := hb r hbody
      rw [hbody] at ha
      cases r with
      | done a' =>
        simp only [Except.ok.injEq] at ha
        subst ha
        exact hr
      | again s' => exact ih hr a ha

end Post

/-- A sequence returns exactly when both of its parts do. -/
theorem bind_eq_ok {α β : Type} {x : Exec α} {f : α → Exec β} {b : β} :
    (x >>= f) = .ok b ↔ ∃ a, x = .ok a ∧ f a = .ok b := by
  cases x with
  | error e => simp [Bind.bind, Except.bind]
  | ok a => simp [Bind.bind, Except.bind]

@[simp] theorem ok_bind {α β : Type} (a : α) (f : α → Exec β) : (Except.ok a >>= f) = f a := rfl

@[simp] theorem error_bind {α β : Type} (e : Fault) (f : α → Exec β) :
    ((Except.error e : Exec α) >>= f) = .error e := rfl

@[simp] theorem pure_eq_ok {α : Type} (a : α) : (pure a : Exec α) = .ok a := rfl

end Opennop
