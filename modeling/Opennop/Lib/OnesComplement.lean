import Mathlib.Data.Nat.ModEq
import Mathlib.Tactic.Common

/-!
# One's complement sums

Addition of words with `m` as the word of all ones: a carry out of the word comes back in at its
end. It is addition modulo `m` with two representations of zero, and a sum that is not all zeros is
never zero; so a sum of words is `m` exactly when it is a positive multiple of `m`.
-/

namespace Opennop

def addOnes (m a b : Nat) : Nat := if a + b ≤ m then a + b else a + b - m

def onesSum (m : Nat) (ws : List Nat) : Nat := ws.foldl (addOnes m) 0

section

variable {m a b : Nat}

theorem addOnes_le (ha : a ≤ m) (hb : b ≤ m) : addOnes m a b ≤ m := by
  unfold addOnes
  split <;> omega

theorem addOnes_pos (h : 0 < a + b) : 0 < addOnes m a b := by
  unfold addOnes
  split <;> omega

theorem addOnes_modEq (m a b : Nat) : addOnes m a b ≡ a + b [MOD m] := by
  unfold addOnes
  split
  · rfl
  · exact (Nat.modEq_iff_dvd' (by omega)).2 ⟨1, by omega⟩

end

variable {m : Nat} {ws : List Nat}

/-- The sum from a start value: it is a word, it has the value of the plain sum, and it is not zero
unless all words are. -/
theorem foldl_addOnes {acc : Nat} (hacc : acc ≤ m) (hws : ∀ w ∈ ws, w ≤ m) :
    ws.foldl (addOnes m) acc ≤ m ∧ ws.foldl (addOnes m) acc ≡ acc + ws.sum [MOD m] ∧
      (0 < acc + ws.sum → 0 < ws.foldl (addOnes m) acc) := by
  induction ws generalizing acc with
  | nil => exact ⟨hacc, .rfl, fun h => h⟩
  | cons w ws ih =>
    have hw := hws w List.mem_cons_self
    obtain ⟨hle, hmod, hpos⟩ :=
      ih (addOnes_le hacc hw) fun w' h => hws w' (List.mem_cons_of_mem _ h)
    rw [List.foldl_cons, List.sum_cons, ← Nat.add_assoc]
    refine ⟨hle, hmod.trans ((addOnes_modEq m acc w).add_right _), fun h => hpos ?_⟩
    rcases Nat.eq_zero_or_pos (acc + w) with h0 | h0
    · omega
    · exact Nat.lt_of_lt_of_le (addOnes_pos h0) (Nat.le_add_right _ _)

/-- **A sum that verifies**: a positive multiple of `m` sums up to all ones. -/
theorem onesSum_eq (hws : ∀ w ∈ ws, w ≤ m) (hpos : 0 < ws.sum) (hdvd : m ∣ ws.sum) :
    onesSum m ws = m := by
  obtain ⟨hle, hmod, hne⟩ := foldl_addOnes (Nat.zero_le m) hws
  rw [Nat.zero_add] at hmod hne
  have hzero : onesSum m ws ≡ 0 [MOD m] := hmod.trans (Nat.modEq_zero_iff_dvd.2 hdvd)
  obtain ⟨k, hk⟩ := Nat.modEq_zero_iff_dvd.1 hzero
  have h0 : 0 < onesSum m ws := hne hpos
  have hle' : onesSum m ws ≤ m := hle
  cases k with
  | zero => omega
  | succ k =>
    rw [Nat.mul_succ] at hk
    omega

end Opennop
