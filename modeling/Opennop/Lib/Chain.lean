import Mathlib.Data.List.Basic
import Mathlib.Data.List.Nodup
import Mathlib.Tactic.Common

/-!
# Doubly linked lists

Nodes are the elements of a type `A`; a link is a function from nodes to optional nodes. `Seg next s
l e` says that following `next` from the pointer `s` visits the nodes of `l` and then arrives at the
pointer `e`. A doubly linked list of the nodes `l` with head pointer `h` and tail pointer `t` is a
segment of `next` from `h` and a segment of `prev` from `t` over the reversed list, both ended by
the null pointer.

Adding a node at the end and taking one out change a segment in one way only: the last node before
the place of the change gets a new target (`Seg.retarget`).
-/

namespace Opennop

variable {A : Type}

/-- Following `next` from `s` visits `l` and arrives at `e`. -/
def Seg (next : A → Option A) : Option A → List A → Option A → Prop
  | s, [], e => s = e
  | s, a :: l, e => s = some a ∧ Seg next (next a) l e

namespace Seg

variable {next next' : A → Option A} {s e : Option A} {l l₁ l₂ : List A} {a : A}

@[simp] theorem nil_iff : Seg next s [] e ↔ s = e := Iff.rfl

@[simp] theorem cons_iff : Seg next s (a :: l) e ↔ s = some a ∧ Seg next (next a) l e := Iff.rfl

theorem append_iff : Seg next s (l₁ ++ l₂) e ↔ ∃ m, Seg next s l₁ m ∧ Seg next m l₂ e := by
  induction l₁ generalizing s with
  | nil => simp
  | cons a l₁ ih => simp [ih, and_assoc]

theorem start_eq (h : Seg next s l none) : s = l.head? := by
  cases l with
  | nil => exact h
  | cons a l => exact h.1

theorem unique {l' : List A} (h : Seg next s l none) (h' : Seg next s l' none) : l = l' := by
  induction l generalizing s l' with
  | nil =>
    obtain rfl : s = none := h
    cases l' with
    | nil => rfl
    | cons b l' => exact nomatch h'.1
  | cons a l ih =>
    obtain ⟨rfl, htail⟩ := h
    cases l' with
    | nil => exact nomatch h'
    | cons b l' =>
      obtain rfl : a = b := Option.some.inj h'.1
      rw [ih htail h'.2]

theorem congr (h : Seg next s l e) (hl : ∀ a ∈ l, next' a = next a) : Seg next' s l e := by
  induction l generalizing s with
  | nil => exact h
  | cons a l ih =>
    refine ⟨h.1, ?_⟩
    rw [hl a List.mem_cons_self]
    exact ih h.2 fun b hb => hl b (List.mem_cons_of_mem _ hb)

/-- Giving the last node another target. -/
theorem retarget [DecidableEq A] {e' : Option A} (h : Seg next s l e) (hn : l.Nodup)
    (hlast : ∀ a ∈ l, next' a = if some a = l.getLast? then e' else next a) :
    Seg next' (if l = [] then e' else s) l e' := by
  induction l generalizing s with
  | nil => simp
  | cons a l ih =>
    rw [if_neg (by simp)]
    refine ⟨h.1, ?_⟩
    have ha := hlast a List.mem_cons_self
    obtain ⟨hal, hn⟩ := List.nodup_cons.1 hn
    have hrest := ih h.2 hn fun b hb => by
      have hb' := hlast b (List.mem_cons_of_mem _ hb)
      rwa [List.getLast?_cons_of_ne_nil (List.ne_nil_of_mem hb)] at hb'
    cases l with
    | nil =>
      rw [List.getLast?_singleton, if_pos rfl] at ha
      exact ha
    | cons b l =>
      have hne : some a ≠ (a :: b :: l).getLast? := by
        intro he
        rw [List.getLast?_cons_of_ne_nil (by simp)] at he
        exact hal (List.mem_of_getLast? he.symm)
      rw [if_neg hne] at ha
      rw [if_neg (by simp)] at hrest
      rwa [ha]

end Seg

theorem filter_ne_middle [DecidableEq A] {l₁ l₂ : List A} {a : A} (h : (l₁ ++ a :: l₂).Nodup) :
    (l₁ ++ a :: l₂).filter (· ≠ a) = l₁ ++ l₂ := by
  rw [List.nodup_middle, List.nodup_cons] at h
  rw [List.filter_append, List.filter_cons_of_neg (by simp), ← List.filter_append]
  exact List.filter_eq_self.2 fun x hx => by simpa using fun hxa : x = a => h.1 (hxa ▸ hx)

/-- The nodes `l`, linked both ways. -/
structure DList (next prev : A → Option A) (h t : Option A) (l : List A) : Prop where
  nodup : l.Nodup
  forward : Seg next h l none
  backward : Seg prev t l.reverse none

namespace DList

variable {next prev next' prev' : A → Option A} {h t : Option A} {l l₁ l₂ : List A} {a : A}

theorem nil (next prev : A → Option A) : DList next prev none none [] :=
  ⟨List.nodup_nil, rfl, rfl⟩

theorem head_eq (hd : DList next prev h t l) : h = l.head? := hd.forward.start_eq

theorem tail_eq (hd : DList next prev h t l) : t = l.getLast? := by
  rw [hd.backward.start_eq, List.head?_reverse]

theorem congr (hd : DList next prev h t l) (hnext : ∀ a ∈ l, next' a = next a)
    (hprev : ∀ a ∈ l, prev' a = prev a) : DList next' prev' h t l :=
  ⟨hd.nodup, hd.forward.congr hnext, hd.backward.congr fun a ha => hprev a (List.mem_reverse.1 ha)⟩

theorem next_eq (hd : DList next prev h t (l₁ ++ a :: l₂)) : next a = l₂.head? := by
  obtain ⟨m, -, -, h₂⟩ := Seg.append_iff.1 hd.forward
  exact h₂.start_eq

theorem prev_eq (hd : DList next prev h t (l₁ ++ a :: l₂)) : prev a = l₁.getLast? := by
  have hb := hd.backward
  rw [List.reverse_append, List.reverse_cons, List.append_assoc, List.singleton_append] at hb
  obtain ⟨m, -, -, h₂⟩ := Seg.append_iff.1 hb
  rw [h₂.start_eq, List.head?_reverse]

/-- **Adding a node at the end.** -/
theorem append [DecidableEq A] (hd : DList next prev h t l) (ha : a ∉ l)
    (hnext : ∀ b ∈ l, next' b = if some b = t then some a else next b) (hnext_a : next' a = none)
    (hprev : ∀ b ∈ l, prev' b = prev b) (hprev_a : prev' a = t) :
    DList next' prev' (if l = [] then some a else h) (some a) (l ++ [a]) := by
  refine ⟨?_, ?_, ?_⟩
  · rw [List.nodup_append_comm]
    exact List.nodup_cons.2 ⟨ha, hd.nodup⟩
  · rw [Seg.append_iff]
    refine ⟨some a, hd.forward.retarget hd.nodup fun b hb => ?_, rfl, hnext_a⟩
    rw [hnext b hb, hd.tail_eq]
  · rw [List.reverse_append, List.reverse_singleton, List.singleton_append]
    refine ⟨rfl, ?_⟩
    rw [hprev_a]
    exact hd.backward.congr fun b hb => hprev b (List.mem_reverse.1 hb)

/-- **Taking a node out.** Its neighbours, or the head and tail pointers, get its two links. -/
theorem remove [DecidableEq A] (hd : DList next prev h t (l₁ ++ a :: l₂))
    (hnext : ∀ b ∈ l₁ ++ l₂, next' b = if some b = prev a then next a else next b)
    (hprev : ∀ b ∈ l₁ ++ l₂, prev' b = if some b = next a then prev a else prev b) :
    DList next' prev' (if prev a = none then next a else h) (if next a = none then prev a else t)
      (l₁ ++ l₂) := by
  have hnodup := hd.nodup
  have hna := hd.next_eq
  have hpa := hd.prev_eq
  rw [List.nodup_append, List.nodup_cons] at hnodup
  obtain ⟨hn₁, ⟨-, hn₂⟩, hdisj⟩ := hnodup
  refine ⟨?_, ?_, ?_⟩
  · rw [List.nodup_append]
    exact ⟨hn₁, hn₂, fun b hb c hc => hdisj b hb c (List.mem_cons_of_mem _ hc)⟩
  · obtain ⟨m, h₁, -, h₂⟩ := Seg.append_iff.1 hd.forward
    rw [Seg.append_iff]
    refine ⟨next a, ?_, h₂.congr fun b hb => ?_⟩
    · have hempty : (prev a = none) = (l₁ = []) := by rw [hpa, List.getLast?_eq_none_iff]
      simp only [hempty]
      refine h₁.retarget hn₁ fun b hb => ?_
      rw [hnext b (List.mem_append_left _ hb), hpa]
    · rw [hnext b (List.mem_append_right _ hb), if_neg]
      rw [hpa]
      intro hlast
      exact hdisj b (List.mem_of_getLast? hlast.symm) b (List.mem_cons_of_mem _ hb) rfl
  · have hb := hd.backward
    rw [List.reverse_append, List.reverse_cons, List.append_assoc, List.singleton_append] at hb
    obtain ⟨m, h₂, -, h₁⟩ := Seg.append_iff.1 hb
    rw [List.reverse_append, Seg.append_iff]
    refine ⟨prev a, ?_, h₁.congr fun b hb => ?_⟩
    · have hempty : (next a = none) = (l₂.reverse = []) := by
        rw [hna, List.head?_eq_none_iff, List.reverse_eq_nil_iff]
      simp only [hempty]
      refine h₂.retarget (List.nodup_reverse.2 hn₂) fun b hb => ?_
      rw [hprev b (List.mem_append_right _ (List.mem_reverse.1 hb)), hna, List.getLast?_reverse]
    · have hb₁ := List.mem_reverse.1 hb
      rw [hprev b (List.mem_append_left _ hb₁), if_neg]
      rw [hna]
      intro hhead
      exact hdisj b hb₁ b (List.mem_cons_of_mem _ (List.mem_of_head? hhead.symm)) rfl

end DList

end Opennop
