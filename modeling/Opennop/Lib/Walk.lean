import Opennop.Lib.Chain
import Opennop.Lib.Exec

/-!
# Walks over linked lists

A search loop looks at a node, leaves with it when it is the one looked for, and goes on with the
next one otherwise. Over a linked list of nodes such a loop is `List.find?`.
-/

namespace Opennop

variable {A : Type}

/-- What a pass of a search does at the node `a`. -/
def searchStep (next : A → Option A) (hit : A → Bool) (a : A) : Pass A (Option A) :=
  if hit a then .done (some a)
  else
    match next a with
    | some b => .again b
    | none => .done none

def search (pass : A → Exec (Pass A (Option A))) (fuel : Nat) : Option A → Exec (Option A)
  | none => .ok none
  | some a => loop pass fuel a

variable {next : A → Option A} {hit : A → Bool} {pass : A → Exec (Pass A (Option A))}

theorem loop_search {l : List A} {a : A} {fuel : Nat} (hseg : Seg next (some a) (a :: l) none)
    (hpass : ∀ x ∈ a :: l, pass x = .ok (searchStep next hit x)) (hfuel : l.length < fuel) :
    loop pass fuel a = .ok ((a :: l).find? hit) := by
  obtain ⟨fuel, rfl⟩ : ∃ f, fuel = f + 1 := ⟨fuel - 1, by omega⟩
  have ha := hpass a List.mem_cons_self
  induction l generalizing a fuel with
  | nil =>
    have hnext : next a = none := hseg.2
    by_cases hh : hit a <;> simp [loop, ha, searchStep, hnext, hh]
  | cons b l ih =>
    have hnext : next a = some b := hseg.2.1
    by_cases hh : hit a
    · simp [loop, ha, searchStep, hh]
    · have hpass_a : pass a = .ok (.again b) := by
        rw [ha]
        simp [searchStep, hh, hnext]
      rw [loop_again hpass_a, List.find?_cons_of_neg hh]
      obtain ⟨fuel, rfl⟩ : ∃ f, fuel = f + 1 := ⟨fuel - 1, by simp at hfuel; omega⟩
      exact ih ⟨rfl, hseg.2.2⟩ (fun x hx => hpass x (List.mem_cons_of_mem _ hx)) fuel
        (by simp at hfuel ⊢; omega) (hpass b (by simp))

theorem search_eq {l : List A} {h : Option A} {fuel : Nat} (hseg : Seg next h l none)
    (hpass : ∀ x ∈ l, pass x = .ok (searchStep next hit x)) (hfuel : l.length ≤ fuel) :
    search pass fuel h = .ok (l.find? hit) := by
  cases l with
  | nil =>
    obtain rfl : h = none := hseg
    rfl
  | cons a l =>
    obtain rfl : h = some a := hseg.1
    exact loop_search hseg hpass hfuel

end Opennop
