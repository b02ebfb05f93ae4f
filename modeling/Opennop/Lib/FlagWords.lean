import Mathlib.Data.List.Basic
import Mathlib.Tactic.Common

/-!
# Tokens in groups behind words of flags

A stream of tokens is stored in groups: a word with one flag for each token of the group, then the
tokens. In the word the first flag is the lowest bit, and a one above the last flag marks its end,
so that a reader which shifts the flags out knows that the group is used up when the word is one.
The last group may be short; its word is filled up with zeros below the mark.

A writer does not know the length of the last group in advance. It shifts the flags in from above,
behind the mark (`openWord`), and moves the mark to the top when it closes the group.
-/

namespace Opennop

/-! ## The words -/

/-- The word of `k` flags: the given ones, then zeros, then the mark. -/
def flagWord : Nat → List Bool → Nat
  | 0, _ => 1
  | k + 1, [] => 2 * flagWord k []
  | k + 1, b :: bs => b.toNat + 2 * flagWord k bs

/-- The flags as a number, the first one the lowest bit. -/
def flagBits : List Bool → Nat
  | [] => 0
  | b :: bs => b.toNat + 2 * flagBits bs

/-- The word of a writer with the flags `bs`, which has room for `k` more: the mark is below
them. -/
def openWord (k : Nat) (bs : List Bool) : Nat := (2 * flagBits bs + 1) <<< k

theorem flagWord_pos : ∀ (k : Nat) (bs : List Bool), 0 < flagWord k bs
  | 0, _ => by simp [flagWord]
  | k + 1, [] => by have := flagWord_pos k []; simp only [flagWord]; omega
  | k + 1, _ :: bs => by have := flagWord_pos k bs; simp only [flagWord]; omega

theorem flagWord_eq_one {k : Nat} {bs : List Bool} : flagWord k bs = 1 ↔ k = 0 := by
  cases k with
  | zero => simp [flagWord]
  | succ k =>
    cases bs with
    | nil => simp only [flagWord]; omega
    | cons b bs =>
      have := flagWord_pos k bs
      simp only [flagWord]
      omega

theorem flagWord_lt (k : Nat) (bs : List Bool) : flagWord k bs < 2 <<< k := by
  induction k generalizing bs with
  | zero => simp [flagWord]
  | succ k ih =>
    have hk : 2 <<< (k + 1) = 2 * 2 <<< k := by rw [Nat.shiftLeft_succ]
    cases bs with
    | nil =>
      have := ih []
      simp only [flagWord]
      omega
    | cons b bs =>
      have := ih bs
      have := Bool.toNat_le b
      simp only [flagWord]
      omega

theorem flagWord_append {k : Nat} {bs : List Bool} (cs : List Bool) (h : k ≤ bs.length) :
    flagWord k (bs ++ cs) = flagWord k bs := by
  induction k generalizing bs with
  | zero => simp [flagWord]
  | succ k ih =>
    cases bs with
    | nil => simp at h
    | cons b bs =>
      simp only [List.cons_append, flagWord]
      rw [ih (by simpa using h)]

theorem flagWord_of_false {k : Nat} {bs : List Bool} (h : ∀ b ∈ bs, b = false) :
    flagWord k bs = 1 <<< k := by
  induction k generalizing bs with
  | zero => rfl
  | succ k ih =>
    cases bs with
    | nil => rw [flagWord, ih h, Nat.shiftLeft_succ]
    | cons b bs =>
      obtain rfl := h b List.mem_cons_self
      rw [flagWord, ih fun b hb => h b (List.mem_cons_of_mem _ hb), Nat.shiftLeft_succ]
      exact Nat.zero_add _

theorem flagWord_eq {k : Nat} {bs : List Bool} (h : bs.length ≤ k) :
    flagWord k bs = flagBits bs + 1 <<< k := by
  induction bs generalizing k with
  | nil => rw [flagWord_of_false (by simp), flagBits, Nat.zero_add]
  | cons b bs ih =>
    cases k with
    | zero => simp at h
    | succ k =>
      rw [flagWord, flagBits, ih (by simpa using h), Nat.shiftLeft_succ]
      omega

theorem flagBits_append (bs : List Bool) (b : Bool) :
    flagBits (bs ++ [b]) = flagBits bs + b.toNat <<< bs.length := by
  induction bs with
  | nil => simp [flagBits]
  | cons c bs ih =>
    rw [List.cons_append, flagBits, flagBits, ih, List.length_cons, Nat.shiftLeft_succ]
    omega

theorem flagBits_lt (bs : List Bool) : flagBits bs < 1 <<< bs.length := by
  induction bs with
  | nil => simp [flagBits]
  | cons b bs ih =>
    have := Bool.toNat_le b
    rw [flagBits, List.length_cons, Nat.shiftLeft_succ]
    omega

theorem openWord_append (k : Nat) (bs : List Bool) (b : Bool) :
    openWord k (bs ++ [b]) = openWord (k + 1) bs / 2 + b.toNat <<< (k + 1 + bs.length) := by
  have hlow : openWord (k + 1) bs / 2 = (2 * flagBits bs + 1) <<< k := by
    unfold openWord
    rw [Nat.shiftLeft_succ]
    omega
  have htop : b.toNat <<< (k + 1 + bs.length) = (2 * b.toNat <<< bs.length) <<< k := by
    rw [show k + 1 + bs.length = bs.length + 1 + k by omega, Nat.shiftLeft_add, Nat.shiftLeft_succ]
  rw [hlow, htop, openWord, flagBits_append]
  simp only [Nat.shiftLeft_eq]
  rw [← Nat.add_mul]
  congr 1
  omega

theorem openWord_lt (k : Nat) (bs : List Bool) : openWord k bs < 2 <<< (k + bs.length) := by
  have h := flagBits_lt bs
  rw [openWord, Nat.add_comm k, Nat.shiftLeft_add, Nat.shiftLeft_eq _ k, Nat.shiftLeft_eq _ k]
  apply Nat.mul_lt_mul_of_pos_right _ (Nat.two_pow_pos k)
  rw [Nat.shiftLeft_eq] at h ⊢
  omega

/-- The mark is the lowest bit exactly when there is no more room. -/
theorem openWord_odd {k : Nat} {bs : List Bool} : openWord k bs % 2 = 1 ↔ k = 0 := by
  cases k with
  | zero =>
    rw [openWord, Nat.shiftLeft_zero, Nat.mul_add_mod]
    simp
  | succ k =>
    rw [openWord, Nat.shiftLeft_succ]
    omega

theorem openWord_shift (k j : Nat) (bs : List Bool) :
    openWord (k + j) bs / 1 <<< j = openWord k bs := by
  unfold openWord
  rw [Nat.shiftLeft_add, Nat.shiftLeft_eq _ j, Nat.shiftLeft_eq 1 j, Nat.one_mul]
  exact Nat.mul_div_cancel _ (Nat.two_pow_pos j)

/-- Closing the group: the mark goes from the bottom to the top. -/
theorem flagWord_of_openWord {k : Nat} {bs : List Bool} (h : bs.length ≤ k) :
    flagWord k bs = openWord 0 bs / 2 + 1 <<< k := by
  rw [flagWord_eq h, openWord, Nat.shiftLeft_zero]
  omega

/-! ## Groups -/

section Groups

variable {τ β : Type} (g : Nat) (word : Nat → List β) (flag : τ → Bool) (bytes : τ → List β)

/-- The stored form of the tokens, of which the first `k` belong to a group that is already open. -/
def grouped : Nat → List τ → List β
  | _, [] => []
  | 0, t :: ts => word (flagWord g ((t :: ts).map flag)) ++ (bytes t ++ grouped (g - 1) ts)
  | k + 1, t :: ts => bytes t ++ grouped k ts

variable {g word flag bytes}

theorem grouped_of_le {k : Nat} {ts : List τ} (h : ts.length ≤ k) :
    grouped g word flag bytes k ts = ts.flatMap bytes := by
  induction ts generalizing k with
  | nil => cases k <;> rfl
  | cons t ts ih =>
    cases k with
    | zero => simp at h
    | succ k => rw [grouped, ih (by simpa using h), List.flatMap_cons]

theorem grouped_group {ts : List τ} (h0 : ts ≠ []) (h : ts.length ≤ g) :
    grouped g word flag bytes 0 ts = word (flagWord g (ts.map flag)) ++ ts.flatMap bytes := by
  cases ts with
  | nil => exact absurd rfl h0
  | cons t ts =>
    rw [grouped, grouped_of_le (by simp only [List.length_cons] at h; omega), List.flatMap_cons]

theorem grouped_append (hg : 0 < g) {k n : Nat} {ts us : List τ} (h : ts.length = k + n * g) :
    grouped g word flag bytes k (ts ++ us) =
      grouped g word flag bytes k ts ++ grouped g word flag bytes 0 us := by
  induction ts generalizing k n with
  | nil =>
    have hk : k = 0 := by simp only [List.length_nil] at h; omega
    subst hk
    simp [grouped]
  | cons t ts ih =>
    rw [List.length_cons] at h
    cases k with
    | zero =>
      cases n with
      | zero => omega
      | succ n =>
        rw [Nat.succ_mul] at h
        have hlen : ts.length = (g - 1) + n * g := by omega
        have hword : flagWord g ((t :: (ts ++ us)).map flag) = flagWord g ((t :: ts).map flag) := by
          rw [← List.cons_append, List.map_append]
          apply flagWord_append
          rw [List.length_map, List.length_cons]
          omega
        rw [List.cons_append, grouped, grouped, ih hlen, hword]
        simp only [List.append_assoc]
    | succ k =>
      rw [List.cons_append, grouped, grouped, ih (n := n) (by omega), List.append_assoc]

theorem length_grouped (hg : 0 < g) {c : Nat} (hw : ∀ w, (word w).length = c) {k n : Nat}
    {ts : List τ} (h : ts.length = k + n * g) :
    (grouped g word flag bytes k ts).length = n * c + (ts.flatMap bytes).length := by
  induction ts generalizing k n with
  | nil =>
    rw [List.length_nil] at h
    obtain rfl : n = 0 := by
      cases n with
      | zero => rfl
      | succ n => rw [Nat.succ_mul] at h; omega
    cases k <;> simp [grouped]
  | cons t ts ih =>
    rw [List.length_cons] at h
    cases k with
    | zero =>
      cases n with
      | zero => omega
      | succ n =>
        rw [Nat.succ_mul] at h
        rw [grouped, List.length_append, List.length_append, hw, ih (n := n) (by omega),
          List.flatMap_cons, List.length_append, Nat.succ_mul]
        omega
    | succ k =>
      rw [grouped, List.length_append, ih (n := n) (by omega), List.flatMap_cons,
        List.length_append]
      omega

end Groups

end Opennop
