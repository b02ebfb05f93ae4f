import Mathlib.Tactic.Choose

/-!
# Programs that act, and protocols

A program over the actions `E`, where the action `e` has results in `R e`, is a tree: it is done, or
it performs an action and goes on with the result. A protocol says which actions are allowed in a
phase and which phase follows an action with its result. `Follows P ψ φ c` says that from phase `φ`
on the program `c` only does what is allowed, whatever the results are, and that it is done with a
value and in a phase for which `ψ` holds. `Avoids bad Expected ψ c` says that `c` does nothing bad
as long as the results are as expected.
-/

namespace Opennop

/-- A program over the actions `E`. -/
inductive Tree {E : Type} (R : E → Type) (α : Type) where
  | done (x : α)
  | act (e : E) (next : R e → Tree R α)

/-- The actions a phase allows, and the phases that follow. -/
structure Protocol {E : Type} (R : E → Type) (Φ : Type) where
  may : Φ → E → Prop
  after : Φ → (e : E) → R e → Φ → Prop

namespace Tree

variable {E : Type} {R : E → Type} {α β Φ : Type}

def bind : Tree R α → (α → Tree R β) → Tree R β
  | done x, f => f x
  | act e next, f => act e fun r => (next r).bind f

instance : Monad (Tree R) where
  pure := done
  bind := bind

def perform (e : E) : Tree R (R e) := act e done

@[simp] theorem done_bind (x : α) (f : α → Tree R β) : (done x : Tree R α) >>= f = f x := rfl

@[simp] theorem act_bind (e : E) (next : R e → Tree R α) (f : α → Tree R β) :
    act e next >>= f = act e fun r => next r >>= f := rfl

@[simp] theorem pure_eq_done (x : α) : (pure x : Tree R α) = done x := rfl

def head? : Tree R α → Option E
  | done _ => none
  | act e _ => some e

/-- The program keeps to the protocol from phase `φ` on, with the postcondition `ψ`. -/
inductive Follows (P : Protocol R Φ) (ψ : α → Φ → Prop) : Φ → Tree R α → Prop
  | done {φ : Φ} {x : α} (h : ψ x φ) : Follows P ψ φ (.done x)
  | act {φ : Φ} {e : E} {next : R e → Tree R α} (hmay : P.may φ e) (φ' : R e → Φ)
    (hafter : ∀ r, P.after φ e r (φ' r)) (hnext : ∀ r, Follows P ψ (φ' r) (next r)) :
    Follows P ψ φ (.act e next)

namespace Follows

variable {P : Protocol R Φ} {ψ ψ' : α → Φ → Prop} {χ : β → Φ → Prop} {φ : Φ} {c : Tree R α}

theorem mono (h : Follows P ψ φ c) (hψ : ∀ x φ, ψ x φ → ψ' x φ) : Follows P ψ' φ c := by
  induction h with
  | done h => exact .done (hψ _ _ h)
  | act hmay φ' hafter _ ih => exact .act hmay φ' hafter ih

/-- **The rule for sequences.** -/
theorem bind {f : α → Tree R β} (h : Follows P ψ φ c)
    (hf : ∀ x φ, ψ x φ → Follows P χ φ (f x)) : Follows P χ φ (c >>= f) := by
  induction h with
  | done h => exact hf _ _ h
  | act hmay φ' hafter _ ih => exact .act hmay φ' hafter ih

/-- **The rule for an action** and what follows it. -/
theorem perform_bind {e : E} {f : R e → Tree R β} (hmay : P.may φ e)
    (h : ∀ r, ∃ φ', P.after φ e r φ' ∧ Follows P χ φ' (f r)) :
    Follows P χ φ (perform e >>= f) := by
  choose φ' hafter hnext using h
  exact .act hmay φ' hafter hnext

/-- **The rule for two protocols**: one that sees less of the phases. -/
theorem map {Ψ : Type} {Q : Protocol R Ψ} {ψ' : α → Ψ → Prop} (f : Φ → Ψ) (h : Follows P ψ φ c)
    (hmay : ∀ φ e, P.may φ e → (∀ r, ∃ φ', P.after φ e r φ') → Q.may (f φ) e)
    (hafter : ∀ φ e r φ', P.after φ e r φ' → Q.after (f φ) e r (f φ'))
    (hψ : ∀ x φ, ψ x φ → ψ' x (f φ)) : Follows Q ψ' (f φ) c := by
  induction h with
  | done h => exact .done (hψ _ _ h)
  | act hm φ' ha _ ih =>
    refine .act (hmay _ _ hm fun r => ⟨φ' r, ha r⟩) (f ∘ φ') (fun r => hafter _ _ _ _ (ha r)) ih

theorem next {e : E} {next : R e → Tree R α} (h : Follows P ψ φ (.act e next)) (r : R e) :
    ∃ φ', P.after φ e r φ' ∧ Follows P ψ φ' (next r) := by
  cases h with
  | act _ φ' hafter hnext => exact ⟨φ' r, hafter r, hnext r⟩

theorem post {x : α} (h : Follows P ψ φ (.done x)) : ψ x φ := by
  cases h with
  | done h => exact h

end Follows

/-- No action of the program is `bad` as long as the results are `Expected`, and it is done with a
value for which `ψ` holds. -/
inductive Avoids (bad : E → Prop) (Expected : (e : E) → R e → Prop) (ψ : α → Prop) : Tree R α → Prop
  | done {x : α} (h : ψ x) : Avoids bad Expected ψ (.done x)
  | act {e : E} {next : R e → Tree R α} (h : ¬ bad e)
    (hnext : ∀ r, Expected e r → Avoids bad Expected ψ (next r)) :
      Avoids bad Expected ψ (.act e next)

namespace Avoids

variable {bad : E → Prop} {Expected : (e : E) → R e → Prop} {ψ : α → Prop}

theorem next {e : E} {next : R e → Tree R α} (h : Avoids bad Expected ψ (.act e next)) :
    ¬ bad e ∧ ∀ r, Expected e r → Avoids bad Expected ψ (next r) := by
  cases h with
  | act h hnext => exact ⟨h, hnext⟩

end Avoids

end Tree

end Opennop
