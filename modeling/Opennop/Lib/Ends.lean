import Mathlib.Data.Finset.Card
import Mathlib.Logic.Relation
import Opennop.Lib.Exec

/-!
# Loops that end or come back

A loop whose passes never fail and whose states have finitely many codes ends, unless it comes back
to a state it has been in. `loop_of_acyclic` says this with the number of passes that suffice,
`not_ends_of_returns` is the converse. Where every pass that does not go back raises an index, a
loop that comes back does so through a pass that goes back (`exists_back`), so such a loop ends
exactly when no pass goes back to where it has been (`ends_iff_noReturn`).
-/

namespace Opennop

open Relation

variable {σ α : Type}

/-- The loop leaves after some number of passes. -/
def Ends (body : σ → Exec (Pass σ α)) (s : σ) : Prop := ∃ fuel a, loop body fuel s = .ok a

/-- A pass from `s` goes on from `s'`. -/
def Again (body : σ → Exec (Pass σ α)) (s s' : σ) : Prop := body s = .ok (.again s')

theorem reach_first {R : σ → σ → Prop} {a b : σ} (h : ReflTransGen R a b) :
    ReflTransGen (fun x y => R x y ∧ x ≠ b) a b := by
  classical
  induction h using ReflTransGen.head_induction_on with
  | refl => exact .refl
  | @head c d hstep _ ih =>
    by_cases hc : c = b
    · rw [hc]
    · exact .head ⟨hstep, hc⟩ ih

section Passes

variable {body : σ → Exec (Pass σ α)} {s s' : σ}

theorem Again.unique {s₁ s₂ : σ} (h₁ : Again body s s₁) (h₂ : Again body s s₂) : s₁ = s₂ := by
  unfold Again at h₁ h₂
  rw [h₁] at h₂
  simpa using h₂

theorem loop_of_reach (h : ReflTransGen (Again body) s s') {fuel : Nat} {a : α}
    (ha : loop body fuel s' = .ok a) : ∃ fuel, loop body fuel s = .ok a := by
  induction h using ReflTransGen.head_induction_on with
  | refl => exact ⟨fuel, ha⟩
  | head hstep _ ih =>
    obtain ⟨m, hm⟩ := ih
    exact ⟨m + 1, by rw [loop_again hstep, hm]⟩

/-- What a loop returns is what its last pass leaves with. -/
theorem loop_ok_iff {a : α} : (∃ fuel, loop body fuel s = .ok a) ↔
    ∃ s', ReflTransGen (Again body) s s' ∧ body s' = .ok (.done a) := by
  constructor
  · rintro ⟨fuel, h⟩
    induction fuel generalizing s with
    | zero => cases h
    | succ fuel ih =>
      unfold loop at h
      cases hb : body s with
      | error e => rw [hb] at h; cases h
      | ok r =>
        rw [hb] at h
        cases r with
        | done b =>
          simp only [Except.ok.injEq] at h
          exact ⟨s, .refl, by rw [hb, h]⟩
        | again t =>
          obtain ⟨u, hu, hdone⟩ := ih h
          exact ⟨u, .head hb hu, hdone⟩
  · rintro ⟨s', hs', hdone⟩
    exact loop_of_reach hs' (loop_done hdone : loop body (0 + 1) s' = _)

theorem loop_more {fuel : Nat} {a : α} (h : loop body fuel s = .ok a) (m : Nat) :
    loop body (fuel + m) s = .ok a := by
  induction fuel generalizing s with
  | zero => cases h
  | succ fuel ih =>
    rw [Nat.succ_add]
    unfold loop at h ⊢
    cases hbody : body s with
    | error e => rw [hbody] at h; cases h
    | ok r =>
      rw [hbody] at h
      cases r with
      | done c => exact h
      | again t => exact ih h

/-- However many passes are allowed, a loop that leaves leaves with the same result. -/
theorem loop_unique {fuel fuel' : Nat} {a b : α} (ha : loop body fuel s = .ok a)
    (hb : loop body fuel' s = .ok b) : a = b := by
  have hsame := (loop_more ha fuel').symm.trans (Nat.add_comm fuel fuel' ▸ loop_more hb fuel)
  exact Except.ok.inj hsame

/-- From a state that is reached again, a loop that leaves would leave earlier and earlier. -/
theorem not_ends_of_returns (h : TransGen (Again body) s s) : ¬ Ends body s := by
  have hless : ∀ {t u : σ}, TransGen (Again body) t u → ∀ {fuel a}, loop body fuel t = .ok a →
      ∃ m, m < fuel ∧ loop body m u = .ok a := by
    intro t u htu
    induction htu with
    | single hstep =>
      intro fuel a ha
      cases fuel with
      | zero => cases ha
      | succ m => exact ⟨m, Nat.lt_succ_self m, by rwa [loop_again hstep] at ha⟩
    | tail _ hstep ih =>
      intro fuel a ha
      obtain ⟨m, hm, hloop⟩ := ih ha
      cases m with
      | zero => cases hloop
      | succ k => exact ⟨k, by omega, by rwa [loop_again hstep] at hloop⟩
  rintro ⟨fuel, a, ha⟩
  induction fuel using Nat.strong_induction_on with
  | _ fuel ih =>
    obtain ⟨m, hm, hloop⟩ := hless h ha
    exact ih m hm hloop

theorem Ends.of_reach (h : Ends body s) (hs : ReflTransGen (Again body) s s') : Ends body s' := by
  induction hs with
  | refl => exact h
  | tail _ hstep ih =>
    obtain ⟨fuel, a, ha⟩ := ih
    cases fuel with
    | zero => cases ha
    | succ m => exact ⟨m, a, by rwa [loop_again hstep] at ha⟩

/-- Passes from a state that is reached again stay on the way back to it. -/
theorem reach_back (h : TransGen (Again body) s s) (hs : ReflTransGen (Again body) s s') :
    ReflTransGen (Again body) s' s := by
  induction hs with
  | refl => exact .refl
  | tail _ hstep ih =>
    rcases ReflTransGen.cases_head ih with heq | ⟨t, hstep', ht⟩
    · subst heq
      obtain ⟨t, hstep', ht⟩ := TransGen.head'_iff.mp h
      rw [hstep.unique hstep']
      exact ht
    · rw [hstep.unique hstep']
      exact ht

/-- Where the passes on a way back to the same state raise an index unless they go back, such a way
takes a pass that goes back, and comes to it again. -/
theorem exists_back {index : σ → Nat} {back : σ → Prop}
    (hup : ∀ t u, ReflTransGen (Again body) s t → Again body t u → ReflTransGen (Again body) u t →
      ¬ back t → index t < index u)
    (h : TransGen (Again body) s s) :
    ∃ t, ReflTransGen (Again body) s t ∧ back t ∧ TransGen (Again body) t t := by
  by_contra hnone
  have hno : ∀ t, ReflTransGen (Again body) s t → ¬ back t := by
    intro t ht hback
    refine hnone ⟨t, ht, hback, ?_⟩
    exact (TransGen.trans_right (reach_back h ht) h).trans_left ht
  have hrise : ∀ t u, ReflTransGen (Again body) s t → Again body t u → index t < index u := by
    intro t u ht htu
    exact hup t u ht htu ((reach_back h (ht.tail htu)).trans ht) (hno t ht)
  have hlt : ∀ t, TransGen (Again body) s t → index s < index t := by
    intro t ht
    induction ht with
    | single hstep => exact hrise _ _ .refl hstep
    | tail hpre hstep ih => exact ih.trans (hrise _ _ hpre.to_reflTransGen hstep)
  exact Nat.lt_irrefl _ (hlt s h)

end Passes

/-- From `s`, no state with `back` is reached that is reached from itself again. -/
def NoReturn (R : σ → σ → Prop) (back : σ → Prop) (s : σ) : Prop :=
  ∀ t, ReflTransGen R s t → back t → ¬ TransGen R t t

theorem NoReturn.mono {R R' : σ → σ → Prop} {back : σ → Prop} {s : σ} (h : NoReturn R back s)
    (hR : ∀ t u, R' t u → R t u) : NoReturn R' back s :=
  fun t ht hback hret => h t (ReflTransGen.mono hR _ _ ht) hback (TransGen.mono hR _ _ hret)

/-- What bounds the walks along `R` from `s`: the states have fewer than `N` codes, a walk that
meets a code again is in the same state again, and on a way back to the same state a step that is
not `back` raises the index. -/
structure Bounded (R : σ → σ → Prop) (back : σ → Prop) (code index : σ → Nat) (N : Nat) (s : σ) :
    Prop where
  code_lt : ∀ t, ReflTransGen R s t → code t < N
  code_inj : ∀ t u, ReflTransGen R s t → ReflTransGen R t u → code t = code u → t = u
  rises : ∀ t u, ReflTransGen R s t → R t u → ReflTransGen R u t → ¬ back t → index t < index u

theorem Bounded.mono {R R' : σ → σ → Prop} {back : σ → Prop} {code index : σ → Nat} {N : Nat}
    {s : σ} (h : Bounded R back code index N s) (hR : ∀ t u, R' t u → R t u) :
    Bounded R' back code index N s := by
  have hreach : ∀ {t u}, ReflTransGen R' t u → ReflTransGen R t u := ReflTransGen.mono hR _ _
  constructor
  · intro t ht
    exact h.code_lt t (hreach ht)
  · intro t u ht htu
    exact h.code_inj t u (hreach ht) (hreach htu)
  · intro t u ht htu hut
    exact h.rises t u (hreach ht) (hR t u htu) (hreach hut)

section Bound

variable {body : σ → Exec (Pass σ α)} {back : σ → Prop} {code index : σ → Nat} {N : Nat} {s : σ}

/-- A loop that comes back to no state leaves after at most as many passes as there are codes. -/
theorem loop_of_acyclic (C : Finset Nat)
    (hok : ∀ t, ReflTransGen (Again body) s t → ∃ r, body t = .ok r)
    (hC : ∀ t, ReflTransGen (Again body) s t → code t ∈ C)
    (hcode : ∀ t u, ReflTransGen (Again body) s t → ReflTransGen (Again body) t u →
      code t = code u → t = u)
    (hacyclic : ∀ t, ReflTransGen (Again body) s t → ¬ TransGen (Again body) t t) :
    ∃ a, loop body (C.card + 1) s = .ok a := by
  -- each pass uses up the code of its state
  induction hn : C.card generalizing C s with
  | zero =>
    have hmem := hC s .refl
    rw [Finset.card_eq_zero.mp hn] at hmem
    simp at hmem
  | succ n ih =>
    obtain ⟨r, hr⟩ := hok s .refl
    cases r with
    | done a => exact ⟨a, loop_done hr⟩
    | again t =>
      have hst : Again body s t := hr
      have hfrom : ∀ {u}, ReflTransGen (Again body) t u → ReflTransGen (Again body) s u :=
        fun hu => .head hst hu
      rw [loop_again hr]
      refine ih (C.erase (code s)) (fun u hu => hok u (hfrom hu)) ?_
        (fun u v hu huv => hcode u v (hfrom hu) huv) (fun u hu => hacyclic u (hfrom hu)) ?_
      · intro u hu
        refine Finset.mem_erase.mpr ⟨fun heq => ?_, hC u (hfrom hu)⟩
        have hsu : s = u := hcode s u .refl (hfrom hu) heq.symm
        rw [← hsu] at hu
        exact hacyclic s .refl (.head' hst hu)
      · rw [Finset.card_erase_of_mem (hC s .refl), hn, Nat.add_sub_cancel]

/-- A bounded loop that never goes back to where it has been ends, within as many passes as there
are codes. -/
theorem loop_of_noReturn (hb : Bounded (Again body) back code index N s)
    (hok : ∀ t, ReflTransGen (Again body) s t → ∃ r, body t = .ok r)
    (hno : NoReturn (Again body) back s) : ∃ a, loop body (N + 1) s = .ok a := by
  have hloop := loop_of_acyclic (Finset.range N) hok
    (fun t ht => Finset.mem_range.mpr (hb.code_lt t ht)) hb.code_inj (by
      intro t ht hreturns
      obtain ⟨u, hu, hback, hret⟩ :=
        exists_back (fun v w hv => hb.rises v w (ht.trans hv)) hreturns
      exact hno u (ht.trans hu) hback hret)
  rwa [Finset.card_range] at hloop

theorem Ends.noReturn (h : Ends body s) : NoReturn (Again body) back s :=
  fun _ ht _ hreturns => not_ends_of_returns hreturns (h.of_reach ht)

/-- A bounded loop ends exactly when it never goes back to where it has been. -/
theorem ends_iff_noReturn (hb : Bounded (Again body) back code index N s)
    (hok : ∀ t, ReflTransGen (Again body) s t → ∃ r, body t = .ok r) :
    Ends body s ↔ NoReturn (Again body) back s :=
  ⟨Ends.noReturn, fun hno => ⟨N + 1, loop_of_noReturn hb hok hno⟩⟩

end Bound

end Opennop
