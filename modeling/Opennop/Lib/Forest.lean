import Mathlib.Data.List.Nodup
import Mathlib.Data.List.Induction
import Mathlib.Logic.Function.Basic

/-!
# Forests of keyed nodes

Nodes hang in the lists of places, and every node is a place for further nodes. The nodes of one
place have different keys, so that a list of keys leads from a place to at most one other place; a
node hangs in one place only, so that at most one list of keys leads there from the roots. Hanging a
new node below a place makes exactly one list of keys lead further than before.
-/

namespace Opennop

/-- Nodes `A` with keys `K` in the lists of places `R`. -/
structure Forest (R A K : Type) where
  kids : R → List A
  key : A → K
  child : A → R
  child_injective : Function.Injective child
  nodup_keys : ∀ r, ((kids r).map key).Nodup
  place_unique : ∀ {r s a}, a ∈ kids r → a ∈ kids s → r = s

namespace Forest

variable {R A K : Type} [DecidableEq R] [DecidableEq A] [DecidableEq K] (F : Forest R A K)

/-- The node with key `k` in the list of `r`. -/
def step (r : R) (k : K) : Option A := (F.kids r).find? fun a => F.key a = k

def reach : R → List K → Option R
  | r, [] => some r
  | r, k :: p => (F.step r k).bind fun a => reach (F.child a) p

/-- No node is the place `r`. -/
def IsRoot (r : R) : Prop := ∀ a, F.child a ≠ r

variable {F} {r s x : R} {a : A} {k : K} {p q : List K}

omit [DecidableEq R] [DecidableEq A] in
theorem step_eq_some : F.step r k = some a ↔ a ∈ F.kids r ∧ F.key a = k := by
  unfold step
  constructor
  · intro h
    exact ⟨List.mem_of_find?_eq_some h, by simpa using List.find?_some h⟩
  · rintro ⟨ha, rfl⟩
    cases hfind : (F.kids r).find? fun b => F.key b = F.key a with
    | none => simpa using List.find?_eq_none.1 hfind a ha
    | some b =>
      have hb := List.mem_of_find?_eq_some hfind
      have hkey : F.key b = F.key a := by simpa using List.find?_some hfind
      rw [List.inj_on_of_nodup_map (F.nodup_keys r) hb ha hkey]

omit [DecidableEq R] [DecidableEq A] in
@[simp] theorem reach_nil : F.reach r [] = some r := rfl

omit [DecidableEq R] [DecidableEq A] in
theorem reach_cons : F.reach r (k :: p) = some x ↔
    ∃ a, F.step r k = some a ∧ F.reach (F.child a) p = some x := by
  simp [reach, Option.bind_eq_some_iff]

omit [DecidableEq R] [DecidableEq A] in
theorem reach_append (p q : List K) :
    F.reach r (p ++ q) = (F.reach r p).bind fun s => F.reach s q := by
  induction p generalizing r with
  | nil => rfl
  | cons k p ih =>
    simp only [List.cons_append, reach, Option.bind_assoc]
    congr 1
    funext a
    exact ih

omit [DecidableEq R] [DecidableEq A] in
theorem reach_concat : F.reach r (p ++ [k]) = some x ↔
    ∃ s a, F.reach r p = some s ∧ F.step s k = some a ∧ F.child a = x := by
  simp [reach_append, reach, Option.bind_eq_some_iff]

omit [DecidableEq R] [DecidableEq A] in
/-- **Only one list of keys leads from the roots to a place.** -/
theorem reach_injective (hr : F.IsRoot r) (hs : F.IsRoot s) (hp : F.reach r p = some x)
    (hq : F.reach s q = some x) : r = s ∧ p = q := by
  induction p using List.reverseRecOn generalizing q x with
  | nil =>
    cases Option.some.inj hp
    cases q using List.reverseRecOn with
    | nil => exact ⟨(Option.some.inj hq).symm, rfl⟩
    | append_singleton q k =>
      obtain ⟨_, a, -, -, ha⟩ := reach_concat.1 hq
      exact absurd ha (hr a)
  | append_singleton p k ih =>
    obtain ⟨t, a, ht, hstep, ha⟩ := reach_concat.1 hp
    cases q using List.reverseRecOn with
    | nil =>
      cases Option.some.inj hq
      exact absurd ha (hs a)
    | append_singleton q l =>
      obtain ⟨t', b, ht', hstep', hb⟩ := reach_concat.1 hq
      have hab : a = b := F.child_injective (ha.trans hb.symm)
      subst hab
      rw [step_eq_some] at hstep hstep'
      have htt : t = t' := F.place_unique hstep.1 hstep'.1
      subst htt
      obtain ⟨rfl, rfl⟩ := ih ht ht'
      exact ⟨rfl, by rw [← hstep.2, ← hstep'.2]⟩

/-! ## A new node -/

omit [DecidableEq A] [DecidableEq K] in
theorem mem_update_kids {b : A} :
    b ∈ Function.update F.kids r (F.kids r ++ [a]) s ↔ b ∈ F.kids s ∨ b = a ∧ s = r := by
  by_cases hs : s = r
  · subst hs
    simp
  · simp [hs]

/-- Hang the new node `a` with key `k` below `r`. -/
def insert (F : Forest R A K) (r : R) (a : A) (k : K) (hfree : ∀ s, a ∉ F.kids s)
    (hk : F.step r k = none) : Forest R A K where
  kids := Function.update F.kids r (F.kids r ++ [a])
  key := Function.update F.key a k
  child := F.child
  child_injective := F.child_injective
  nodup_keys s := by
    have hmap : ∀ s, (F.kids s).map (Function.update F.key a k) = (F.kids s).map F.key := fun s =>
      List.map_congr_left fun b hb =>
        Function.update_of_ne (fun hba : b = a => hfree s (hba ▸ hb)) _ _
    by_cases hs : s = r
    · subst hs
      rw [Function.update_self, List.map_append, hmap, List.map_singleton, Function.update_self,
        List.nodup_append_comm]
      refine List.nodup_cons.2 ⟨?_, F.nodup_keys s⟩
      intro hmem
      obtain ⟨b, hb, hkey⟩ := List.mem_map.1 hmem
      rw [step_eq_some.2 ⟨hb, hkey⟩] at hk
      cases hk
    · rw [Function.update_of_ne hs, hmap]
      exact F.nodup_keys s
  place_unique := by
    intro s t b hb hb'
    rcases mem_update_kids.1 hb with h | ⟨rfl, rfl⟩
    · rcases mem_update_kids.1 hb' with h' | ⟨rfl, rfl⟩
      · exact F.place_unique h h'
      · exact absurd h (hfree s)
    · rcases mem_update_kids.1 hb' with h' | ⟨-, rfl⟩
      · exact absurd h' (hfree t)
      · rfl

variable {hfree : ∀ s, a ∉ F.kids s} {hk : F.step r k = none}

@[simp] theorem child_insert : (F.insert r a k hfree hk).child = F.child := rfl

theorem key_insert : (F.insert r a k hfree hk).key = Function.update F.key a k := rfl

theorem mem_kids_insert {b : A} :
    b ∈ (F.insert r a k hfree hk).kids s ↔ b ∈ F.kids s ∨ b = a ∧ s = r :=
  mem_update_kids

theorem step_insert {b : A} {l : K} :
    (F.insert r a k hfree hk).step s l = some b ↔
      F.step s l = some b ∨ s = r ∧ l = k ∧ b = a := by
  rw [step_eq_some, step_eq_some, mem_kids_insert]
  have hkey : b ∈ F.kids s → (F.insert r a k hfree hk).key b = F.key b := fun hb =>
    Function.update_of_ne (fun hba : b = a => hfree s (hba ▸ hb)) _ _
  constructor
  · rintro ⟨hb | ⟨rfl, rfl⟩, hl⟩
    · exact .inl ⟨hb, (hkey hb).symm.trans hl⟩
    · exact .inr ⟨rfl, hl.symm.trans (Function.update_self _ _ _), rfl⟩
  · rintro (⟨hb, hl⟩ | ⟨rfl, rfl, rfl⟩)
    · exact ⟨.inl hb, (hkey hb).trans hl⟩
    · exact ⟨.inr ⟨rfl, rfl⟩, Function.update_self _ _ _⟩

/-- **A new node without nodes below it lengthens the lists of keys that lead to its place, and no
others.** -/
theorem reach_insert (hleaf : F.kids (F.child a) = []) (hne : F.child a ≠ r) :
    (F.insert r a k hfree hk).reach s p = some x ↔
      F.reach s p = some x ∨ ∃ q, p = q ++ [k] ∧ F.reach s q = some r ∧ x = F.child a := by
  induction p generalizing s with
  | nil => simp [reach]
  | cons l p ih =>
    have hnone : ∀ l, (F.insert r a k hfree hk).step (F.child a) l = none := by
      intro l
      rw [Option.eq_none_iff_forall_ne_some]
      intro b hb
      rcases step_insert.1 hb with hb | ⟨hb, -⟩
      · rw [step_eq_some, hleaf] at hb
        simp at hb
      · exact hne hb
    rw [reach_cons, reach_cons]
    constructor
    · rintro ⟨b, hb, hreach⟩
      rcases step_insert.1 hb with hb | ⟨rfl, rfl, rfl⟩
      · rcases ih.1 hreach with h | ⟨q, rfl, hq, hx⟩
        · exact .inl ⟨b, hb, h⟩
        · exact .inr ⟨l :: q, rfl, reach_cons.2 ⟨b, hb, hq⟩, hx⟩
      · cases p with
        | nil => exact .inr ⟨[], rfl, rfl, (Option.some.inj hreach).symm⟩
        | cons m p =>
          obtain ⟨c, hc, -⟩ := reach_cons.1 hreach
          rw [child_insert, hnone m] at hc
          cases hc
    · rintro (⟨b, hb, hreach⟩ | ⟨q, hp, hq, hx⟩)
      · exact ⟨b, step_insert.2 (.inl hb), ih.2 (.inl hreach)⟩
      · cases q with
        | nil =>
          obtain ⟨rfl, rfl⟩ := List.cons.inj hp
          cases Option.some.inj hq
          exact ⟨a, step_insert.2 (.inr ⟨rfl, rfl, rfl⟩), by rw [hx]; rfl⟩
        | cons m q =>
          obtain ⟨rfl, rfl⟩ := List.cons.inj hp
          obtain ⟨b, hb, hreach⟩ := reach_cons.1 hq
          exact ⟨b, step_insert.2 (.inl hb), ih.2 (.inr ⟨q, rfl, hreach, hx⟩)⟩

end Forest

end Opennop
