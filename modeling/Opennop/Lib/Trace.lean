import Mathlib.Data.List.Induction
import Mathlib.Logic.Basic

/-!
# Runs of a machine with inputs

A machine is a function `step` from a state and an input to the next state. `Along P` says that
every input of a run meets `P` at the state before it, `Always Q` that every state of a run, the
first and the last among them, has `Q`, and `Earlier E` that some input was one with `E`. The rules
reduce all three to one step.
-/

namespace Opennop

namespace Trace

variable {σ ι : Type} (step : σ → ι → σ)

def run (s : σ) (l : List ι) : σ := l.foldl step s

/-- Every input meets `P` at the state before it. -/
def Along (P : σ → ι → Prop) : σ → List ι → Prop
  | _, [] => True
  | s, i :: l => P s i ∧ Along P (step s i) l

/-- Every state of the run has `Q`. -/
def Always (Q : σ → Prop) : σ → List ι → Prop
  | s, [] => Q s
  | s, i :: l => Q s ∧ Always Q (step s i) l

instance instDecidableAlong (P : σ → ι → Prop) [∀ s i, Decidable (P s i)] :
    ∀ s l, Decidable (Along step P s l)
  | _, [] => .isTrue trivial
  | s, i :: l => @instDecidableAnd _ _ _ (instDecidableAlong P (step s i) l)

variable {step} {P P' : σ → ι → Prop} {Q Q' : σ → Prop} {s : σ} {l : List ι}

@[simp] theorem run_nil (s : σ) : run step s [] = s := rfl

@[simp] theorem run_cons (s : σ) (i : ι) (l : List ι) :
    run step s (i :: l) = run step (step s i) l :=
  rfl

theorem run_append (s : σ) (l l' : List ι) : run step s (l ++ l') = run step (run step s l) l' :=
  List.foldl_append

theorem along_append {l' : List ι} :
    Along step P s (l ++ l') ↔ Along step P s l ∧ Along step P (run step s l) l' := by
  induction l generalizing s with
  | nil => simp [Along]
  | cons i l ih => simp only [List.cons_append, Along, run_cons, ih, and_assoc]

theorem along_true (s : σ) (l : List ι) : Along step (fun _ _ => True) s l := by
  induction l generalizing s with
  | nil => trivial
  | cons i l ih => exact ⟨trivial, ih (step s i)⟩

theorem Along.mono (h : Along step P s l) (hP : ∀ s i, P s i → P' s i) : Along step P' s l := by
  induction l generalizing s with
  | nil => trivial
  | cons i l ih => exact ⟨hP s i h.1, ih h.2⟩

theorem along_and : Along step (fun s i => P s i ∧ P' s i) s l ↔
    Along step P s l ∧ Along step P' s l := by
  induction l generalizing s with
  | nil => simp [Along]
  | cons i l ih =>
    simp only [Along, ih]
    exact and_and_and_comm

theorem Always.mono (h : Always step Q s l) (hQ : ∀ s, Q s → Q' s) : Always step Q' s l := by
  induction l generalizing s with
  | nil => exact hQ s h
  | cons i l ih => exact ⟨hQ s h.1, ih h.2⟩

theorem always_and : Always step (fun s => Q s ∧ Q' s) s l ↔
    Always step Q s l ∧ Always step Q' s l := by
  induction l generalizing s with
  | nil => rfl
  | cons i l ih =>
    simp only [Always, ih]
    exact and_and_and_comm

theorem Always.head (h : Always step Q s l) : Q s := by
  cases l with
  | nil => exact h
  | cons i l => exact h.1

theorem Always.last (h : Always step Q s l) : Q (run step s l) := by
  induction l generalizing s with
  | nil => exact h
  | cons i l ih => exact ih h.2

/-- **The rule for invariants.** What every step that meets `P` keeps, a run along `P` keeps. -/
theorem Always.of_step (hstep : ∀ s i, Q s → P s i → Q (step s i)) (h : Q s)
    (hP : Along step P s l) :
    Always step Q s l := by
  induction l generalizing s with
  | nil => exact h
  | cons i l ih => exact ⟨h, ih (hstep s i h hP.1) hP.2⟩

/-- The rule for invariants that speak of the run so far. -/
theorem Along.so_far {I : List ι → σ → Prop} (h : I [] s)
    (hstep : ∀ l i, I l (run step s l) → P (run step s l) i → I (l ++ [i]) (step (run step s l) i))
    (hP : Along step P s l) : I l (run step s l) := by
  induction l using List.reverseRecOn with
  | nil => exact h
  | append_singleton l i ih =>
    obtain ⟨hl, hi, -⟩ := along_append.1 hP
    rw [run_append]
    exact hstep l i (ih hl) hi

/-- What follows from `P` at a step under an invariant, holds along a run along `P`. -/
theorem Along.of_step {I : σ → Prop} (hstep : ∀ s i, I s → P s i → P' s i ∧ I (step s i)) (h : I s)
    (hP : Along step P s l) : Along step P' s l := by
  induction l generalizing s with
  | nil => trivial
  | cons i l ih =>
    have hi := hstep s i h hP.1
    exact ⟨hi.1, ih hi.2 hP.2⟩

/-- **The exact form.** Let `I` be an invariant of the steps that are allowed and meet `P`, from
which `Q` follows, and let `Q` fail after an allowed step that does not meet `P`. Then an allowed
run has `Q` throughout exactly when it is along `P`. -/
theorem always_iff_along_of {I : σ → Prop} {Allowed : σ → ι → Prop} (hI : ∀ s, I s → Q s)
    (hstep : ∀ s i, I s → Allowed s i → P s i → I (step s i))
    (hback : ∀ s i, I s → Allowed s i → Q (step s i) → P s i) (h : I s)
    (ha : Along step Allowed s l) : Always step Q s l ↔ Along step P s l := by
  induction l generalizing s with
  | nil => exact ⟨fun _ => trivial, fun _ => hI s h⟩
  | cons i l ih =>
    constructor
    · intro hq
      have hp := hback s i h ha.1 hq.2.head
      exact ⟨hp, (ih (hstep s i h ha.1 hp) ha.2).1 hq.2⟩
    · intro hp
      exact ⟨hI s h, (ih (hstep s i h ha.1 hp.1) ha.2).2 hp.2⟩

/-- The exact form for a property that is its own invariant. -/
theorem always_iff_along {Allowed : σ → ι → Prop}
    (hstep : ∀ s i, Q s → Allowed s i → (Q (step s i) ↔ P s i)) (h : Q s)
    (ha : Along step Allowed s l) : Always step Q s l ↔ Along step P s l :=
  always_iff_along_of (fun _ hs => hs) (fun s i hs hi => (hstep s i hs hi).2)
    (fun s i hs hi => (hstep s i hs hi).1) h ha

/-! ## Causes -/

section Causes

variable {E E' : List ι → ι → Prop}

/-- The run has an input with `E`, which may depend on the inputs before it. -/
def Earlier (E : List ι → ι → Prop) (l : List ι) : Prop :=
  ∃ l₁ i l₂, l = l₁ ++ i :: l₂ ∧ E l₁ i

theorem Earlier.last {i : ι} (h : E l i) : Earlier E (l ++ [i]) :=
  ⟨l, i, [], rfl, h⟩

theorem Earlier.append (h : Earlier E l) (l' : List ι) : Earlier E (l ++ l') := by
  obtain ⟨l₁, i, l₂, rfl, hi⟩ := h
  exact ⟨l₁, i, l₂ ++ l', by simp, hi⟩

/-- **The rule for causes.** If only inputs with `E` make `Q` true and it is false at first, a run
that ends with `Q` has such an input. -/
theorem Earlier.of_step (h₀ : ¬ Q s)
    (hstep : ∀ l i, Along step P s l → P (run step s l) i → Q (step (run step s l) i) →
      Q (run step s l) ∨ E l i)
    (hP : Along step P s l) (hQ : Q (run step s l)) : Earlier E l := by
  induction l using List.reverseRecOn with
  | nil => exact absurd hQ h₀
  | append_singleton l i ih =>
    obtain ⟨hl, hi, -⟩ := along_append.1 hP
    rw [run_append] at hQ
    rcases hstep l i hl hi hQ with h | h
    · exact (ih hl h).append [i]
    · exact Earlier.last h

end Causes

end Trace

end Opennop
