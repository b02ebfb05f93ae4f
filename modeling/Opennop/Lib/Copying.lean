import Opennop.Lib.Bytes

/-!
# Copying bytes that the copy itself has written

A decoder repeats earlier output by copying it upwards, and the copy may reach into bytes that it
has only just written. `copyUp` copies in passes of `chunk` bytes that are `stride` bytes apart.
Each pass loads before it stores, so the bytes of a chunk past the first `stride` may be wrong; the
next pass writes them again. What comes out is right as long as the source is at least one stride
behind.
-/

namespace Opennop

namespace Mem

/-- `k` passes of copying. -/
def copyUp (chunk stride : Nat) : Nat → Nat → Nat → Mem → Mem
  | _, _, 0, m => m
  | dst, src, k + 1, m => copyUp chunk stride (dst + stride) (src + stride) k (m.move dst src chunk)

section

variable {chunk stride dst src k : Nat} {m : Mem}

theorem copyUp_out {i : Nat} (h : i < dst ∨ dst + k * stride + chunk ≤ i + stride) :
    copyUp chunk stride dst src k m i = m i := by
  induction k generalizing dst src m with
  | zero => rfl
  | succ k ih =>
    rw [Nat.succ_mul] at h
    rw [copyUp, ih (by omega)]
    apply move_out
    have := Nat.le_mul_of_pos_left stride (show 0 < k + 1 by omega)
    rw [Nat.succ_mul] at this
    omega

/-- **The rule for copies that overlap.** What is written so far agrees with `x`, and `x` repeats
from `dst` on what it has from `src` on: then the copy agrees with `x`. -/
theorem copyUp_agrees {x : Mem} (hc : stride ≤ chunk) (hsrc : src + stride ≤ dst)
    (hm : ∀ i < dst, m i = x i) {n : Nat} (hx : ∀ i < n, x (dst + i) = x (src + i))
    (hk : n ≤ k * stride) : ∀ i < dst + n, copyUp chunk stride dst src k m i = x i := by
  induction k generalizing dst src m n with
  | zero =>
    intro i hi
    exact hm i (by omega)
  | succ k ih =>
    intro i hi
    rw [Nat.succ_mul] at hk
    rw [copyUp]
    have hpass : ∀ i, i < dst + stride → i < dst + n → m.move dst src chunk i = x i := by
      intro i hi hin
      by_cases hd : i < dst
      · rw [move_out m (.inl hd), hm i hd]
      · rw [move_in m (by omega) (by omega), hm _ (by omega), ← hx (i - dst) (by omega)]
        congr 1
        omega
    by_cases hn : n ≤ stride
    · rw [copyUp_out (.inl (by omega))]
      exact hpass i (by omega) hi
    · refine ih (by omega) (fun i hi => hpass i hi (by omega)) (n := n - stride) ?_ (by omega) i
        (by omega)
      intro j hj
      have := hx (stride + j) (by omega)
      rwa [← Nat.add_assoc, ← Nat.add_assoc] at this

end

end Mem

end Opennop
