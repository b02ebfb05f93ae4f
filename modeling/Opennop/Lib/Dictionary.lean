import Mathlib.Logic.Function.Basic
import Mathlib.Order.Bounds.Basic
import Mathlib.Order.Interval.Set.Defs

/-!
# Dictionaries of positions

An encoder and a decoder walk over the same data and each enters some of the positions under a key,
a new position in the place of an older one. The decoder enters a position later than the encoder
does, when it knows the data there. `Latest` is what a lookup is meant to find: the last of the
positions `S` up to `l` that has the key.
-/

namespace Opennop

variable {κ : Type} {key : Nat → κ} {S T : Set Nat} {l l' : Int} {h : κ} {q : Nat}

/-- `q` is the last of the positions `S` up to `l` with the key `h`. -/
def Latest (key : Nat → κ) (S : Set Nat) (l : Int) (h : κ) (q : Nat) : Prop :=
  IsGreatest {r : Nat | r ∈ S ∧ (r : Int) ≤ l ∧ key r = h} q

namespace Latest

theorem mem (hq : Latest key S l h q) : q ∈ S := hq.1.1

theorem le (hq : Latest key S l h q) : (q : Int) ≤ l := hq.1.2.1

theorem key_eq (hq : Latest key S l h q) : key q = h := hq.1.2.2

theorem greatest (hq : Latest key S l h q) {r : Nat} (hr : r ∈ S) (hl : (r : Int) ≤ l)
    (hk : key r = h) : r ≤ q := hq.2 ⟨hr, hl, hk⟩

theorem congr (hq : Latest key S l h q) (hST : ∀ r : Nat, (r : Int) ≤ l → (r ∈ T ↔ r ∈ S)) :
    Latest key T l h q := by
  refine ⟨⟨(hST q hq.le).2 hq.mem, hq.le, hq.key_eq⟩, ?_⟩
  rintro r ⟨hr, hl, hk⟩
  exact hq.greatest ((hST r hl).1 hr) hl hk

/-- The last position is still the last one up to a lower bound that it meets. -/
theorem lower (hq : Latest key S l h q) (hl : l' ≤ l) (hql : (q : Int) ≤ l') :
    Latest key S l' h q := by
  refine ⟨⟨hq.mem, hql, hq.key_eq⟩, ?_⟩
  rintro r ⟨hr, hrl, hk⟩
  exact hq.greatest hr (by omega) hk

end Latest

theorem latest_of_mem {n : Nat} (hn : n ∈ S) (hl : (n : Int) = l) : Latest key S l (key n) n := by
  refine ⟨⟨hn, by omega, rfl⟩, ?_⟩
  rintro r ⟨-, hr, -⟩
  omega

variable {table : κ → Option Nat}

/-- Lookups find the last position up to `l`. -/
def Entered (key : Nat → κ) (S : Set Nat) (l : Int) (table : κ → Option Nat) : Prop :=
  ∀ h q, Latest key S l h q → table h = some q

/-- What a lookup finds is the last position up to `l`. -/
def Recorded (key : Nat → κ) (S : Set Nat) (l : Int) (table : κ → Option Nat) : Prop :=
  ∀ h q, table h = some q → Latest key S l h q

namespace Entered

theorem congr (ht : Entered key S l table) (hST : ∀ r : Nat, (r : Int) ≤ l → (r ∈ T ↔ r ∈ S)) :
    Entered key T l table :=
  fun h q hq => ht h q (hq.congr fun r hr => (hST r hr).symm)

theorem raise (ht : Entered key S l table) (hl : l ≤ l') (hS : ∀ r ∈ S, (r : Int) ≤ l) :
    Entered key S l' table :=
  fun h q hq => ht h q (hq.lower hl (hS q hq.mem))

theorem enter [DecidableEq κ] (ht : Entered key S l table) {n : Nat} (hn : n ∈ S)
    (hl : (n : Int) = l + 1) : Entered key S (l + 1) (Function.update table (key n) (some n)) := by
  intro h q hq
  by_cases hh : h = key n
  · subst hh
    have hle := hq.greatest hn (by omega) rfl
    have hge := hq.le
    rw [Function.update_self, show q = n by omega]
  · rw [Function.update_of_ne hh]
    apply ht h q
    have hne : q ≠ n := fun he => hh (he ▸ hq.key_eq.symm)
    have hle := hq.le
    exact hq.lower (by omega) (by omega)

theorem of_neg (hl : l < 0) : Entered key S l table := by
  intro h q hq
  have := hq.le
  omega

end Entered

namespace Recorded

theorem mono (ht : Recorded key S l table) {table' : κ → Option Nat}
    (h : ∀ k q, table' k = some q → table k = some q) : Recorded key S l table' :=
  fun k q hq => ht k q (h k q hq)

theorem raise (ht : Recorded key S l table) (hl : l ≤ l') (hS : ∀ r ∈ S, (r : Int) ≤ l) :
    Recorded key S l' table := by
  intro h q hq
  have hold := ht h q hq
  refine ⟨⟨hold.mem, by have := hold.le; omega, hold.key_eq⟩, ?_⟩
  rintro r ⟨hr, -, hk⟩
  exact hold.greatest hr (hS r hr) hk

theorem enter [DecidableEq κ] (ht : Recorded key S l table) (hS : ∀ r ∈ S, (r : Int) ≤ l) {n : Nat}
    (hl : l < n) :
    Recorded key (insert n S) n (Function.update table (key n) (some n)) := by
  intro h q hq
  by_cases hh : h = key n
  · subst hh
    rw [Function.update_self, Option.some.injEq] at hq
    subst hq
    exact latest_of_mem (Set.mem_insert n S) rfl
  · rw [Function.update_of_ne hh] at hq
    have hold := ht h q hq
    refine ⟨⟨Set.mem_insert_of_mem n hold.mem, by have := hold.le; omega, hold.key_eq⟩, ?_⟩
    rintro r ⟨hr, -, hk⟩
    rcases Set.mem_insert_iff.1 hr with rfl | hr
    · exact absurd hk.symm hh
    · exact hold.greatest hr (hS r hr) hk

end Recorded

end Opennop
