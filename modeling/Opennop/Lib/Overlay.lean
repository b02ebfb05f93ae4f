import Opennop.Lib.Fill

/-!
# Stores and the bytes they do not reach

`m.overlay D s` is the memory `m` with the bytes of `s` at the positions `D`. A store outside of `D`
gives the same with and without the overlay; a store over all of `D` makes the overlay vanish. A
function that writes to memory reaches no byte of `D` in the first case, and in the second one it
overwrites what was there, whatever it was.
-/

namespace Opennop

namespace Mem

def overlay (m : Mem) (D : Nat → Bool) (s : Mem) : Mem := fun i => if D i then s i else m i

/-- All positions of `D` are at or behind `bound`. -/
def Behind (D : Nat → Bool) (bound : Nat) : Prop := ∀ i < bound, D i = false

variable {m s : Mem} {D : Nat → Bool} {bound k : Nat}

theorem overlay_of_lt (h : Behind D bound) (hk : k < bound) : m.overlay D s k = m k := by
  simp [overlay, h k hk]

/-! ## Below the overlay -/

theorem set_overlay (h : Behind D bound) (hk : k + 1 ≤ bound) (b : UInt8) :
    (m.overlay D s).set k b = (m.set k b).overlay D s := by
  funext i
  by_cases hi : i = k
  · simp [hi, overlay, h k hk]
  · simp [overlay, set_ne _ _ hi]

theorem setBe16_overlay (h : Behind D bound) (hk : k + 2 ≤ bound) (v : Nat) :
    (m.overlay D s).setBe16 k v = (m.setBe16 k v).overlay D s := by
  unfold setBe16
  rw [set_overlay h (by omega), set_overlay h (by omega)]

theorem setBe32_overlay (h : Behind D bound) (hk : k + 4 ≤ bound) (v : Nat) :
    (m.overlay D s).setBe32 k v = (m.setBe32 k v).overlay D s := by
  unfold setBe32
  rw [setBe16_overlay h (by omega), setBe16_overlay h (by omega)]

theorem setLe32_overlay (h : Behind D bound) (hk : k + 4 ≤ bound) (v : Nat) :
    (m.overlay D s).setLe32 k v = (m.setLe32 k v).overlay D s := by
  unfold setLe32 setLe16
  rw [set_overlay h (by omega), set_overlay h (by omega), set_overlay h (by omega),
    set_overlay h (by omega)]

theorem fill_overlay (h : Behind D bound) {n : Nat} (hk : k + n ≤ bound) (b : UInt8) :
    (m.overlay D s).fill k n b = (m.fill k n b).overlay D s := by
  funext i
  by_cases hi : k ≤ i ∧ i < k + n
  · rw [fill_in _ _ hi.1 hi.2, overlay_of_lt h (by omega), fill_in _ _ hi.1 hi.2]
  · rw [fill_out _ _ (by omega), overlay, overlay, fill_out _ _ (by omega)]

theorem be16_overlay (h : Behind D bound) (hk : k + 2 ≤ bound) :
    (m.overlay D s).be16 k = m.be16 k :=
  be16_congr fun i _ hi => overlay_of_lt h (by omega)

/-! ## Over the last byte -/

variable {i : Nat}

/-- The overlay is the byte `i`. -/
def Only (D : Nat → Bool) (i : Nat) : Prop := ∀ j, D j = decide (j = i)

theorem Only.behind (h : Only D i) : Behind D i := fun j hj => by
  rw [h j]
  exact decide_eq_false (Nat.ne_of_lt hj)

theorem fill_overlay_last (h : Only D i) {n : Nat} (hk : k + n = i + 1) (hn : 0 < n) (b : UInt8) :
    (m.overlay D s).fill k n b = m.fill k n b := by
  funext j
  by_cases hj : k ≤ j ∧ j < k + n
  · rw [fill_in _ _ hj.1 hj.2, fill_in _ _ hj.1 hj.2]
  · have hne : j ≠ i := by omega
    rw [fill_out _ _ (by omega), fill_out _ _ (by omega), overlay, h j, decide_eq_false hne]
    rfl

end Mem

end Opennop
