import Mathlib.Data.List.Perm.Subperm

/-!
# Lists that split a list

`Partition parts all` says that every element of `all` is in exactly one of the lists `parts i`,
once, and that nothing else is in them. Elements then have exactly one place. The order inside a
part does not matter, so the rules for an element that moves are stated up to permutations.
-/

namespace Opennop

/-- The lists `parts i` split `all`. -/
structure Partition {ι X : Type} (parts : ι → List X) (all : List X) : Prop where
  nodup : ∀ i, (parts i).Nodup
  mem_all : ∀ i, ∀ x ∈ parts i, x ∈ all
  exists_mem : ∀ x ∈ all, ∃ i, x ∈ parts i
  unique : ∀ i j x, x ∈ parts i → x ∈ parts j → i = j

namespace Partition

variable {ι X : Type} {parts parts' : ι → List X} {all : List X} {i j : ι} {x : X}

theorem nil : Partition (fun _ : ι => ([] : List X)) [] :=
  ⟨fun _ => List.nodup_nil, fun _ _ h => h, fun _ h => (nomatch h), fun _ _ _ h => (nomatch h)⟩

theorem existsUnique (h : Partition parts all) (hx : x ∈ all) : ∃! i, x ∈ parts i := by
  obtain ⟨i, hi⟩ := h.exists_mem x hx
  exact ⟨i, hi, fun j hj => h.unique j i x hj hi⟩

theorem not_mem (h : Partition parts all) (hi : x ∈ parts i) (hij : j ≠ i) : x ∉ parts j :=
  fun hj => hij (h.unique j i x hj hi)

theorem length_lt (h : Partition parts all) (hi : x ∈ parts i) (hij : j ≠ i) :
    (parts j).length + 1 ≤ all.length := by
  have hnodup : (x :: parts j).Nodup := List.nodup_cons.2 ⟨h.not_mem hi hij, h.nodup j⟩
  have hsub : x :: parts j ⊆ all := by
    intro y hy
    rcases List.mem_cons.1 hy with rfl | hy
    · exact h.mem_all i y hi
    · exact h.mem_all j y hy
  exact (hnodup.subperm hsub).length_le

theorem length_le (h : Partition parts all) (i : ι) : (parts i).length ≤ all.length :=
  ((h.nodup i).subperm (h.mem_all i)).length_le

theorem length_add_le (h : Partition parts all) (hij : i ≠ j) :
    (parts i ++ parts j).length ≤ all.length := by
  have hnodup : (parts i ++ parts j).Nodup := by
    rw [List.nodup_append]
    exact ⟨h.nodup i, h.nodup j, fun a ha b hb hab => hij (h.unique i j a ha (hab ▸ hb))⟩
  have hsub : parts i ++ parts j ⊆ all := by
    intro y hy
    rcases List.mem_append.1 hy with hy | hy
    · exact h.mem_all i y hy
    · exact h.mem_all j y hy
  exact (hnodup.subperm hsub).length_le

/-- **An element moves** from one part to another. -/
theorem move (h : Partition parts all) (hij : i ≠ j)
    (hi : (parts i).Perm (x :: parts' i)) (hj : (parts' j).Perm (x :: parts j))
    (hother : ∀ k, k ≠ i → k ≠ j → parts' k = parts k) : Partition parts' all := by
  have hxi : x ∈ parts i := hi.mem_iff.2 List.mem_cons_self
  have hnodup : (x :: parts' i).Nodup := hi.nodup_iff.1 (h.nodup i)
  -- where an element is afterwards
  have hmem : ∀ k y, y ∈ parts' k ↔ (y = x ∧ k = j) ∨ (y ≠ x ∧ y ∈ parts k) := by
    intro k y
    by_cases hkj : k = j
    · subst hkj
      rw [hj.mem_iff, List.mem_cons]
      by_cases hy : y = x <;> simp [hy]
    · by_cases hki : k = i
      · subst hki
        by_cases hy : y = x
        · subst hy
          simp [hkj, (List.nodup_cons.1 hnodup).1]
        · rw [hi.mem_iff, List.mem_cons]
          simp [hy]
      · rw [hother k hki hkj]
        by_cases hy : y = x
        · subst hy
          simp [hkj, h.not_mem hxi hki]
        · simp [hy]
  refine ⟨fun k => ?_, fun k y hy => ?_, fun y hy => ?_, fun k l y hk hl => ?_⟩
  · by_cases hkj : k = j
    · subst hkj
      rw [hj.nodup_iff]
      exact List.nodup_cons.2 ⟨h.not_mem hxi hij.symm, h.nodup k⟩
    · by_cases hki : k = i
      · subst hki
        exact (List.nodup_cons.1 hnodup).2
      · rw [hother k hki hkj]
        exact h.nodup k
  · rcases (hmem k y).1 hy with ⟨rfl, -⟩ | ⟨-, hy⟩
    · exact h.mem_all i y hxi
    · exact h.mem_all k y hy
  · by_cases hyx : y = x
    · exact ⟨j, (hmem j y).2 (.inl ⟨hyx, rfl⟩)⟩
    · obtain ⟨k, hk⟩ := h.exists_mem y hy
      exact ⟨k, (hmem k y).2 (.inr ⟨hyx, hk⟩)⟩
  · rcases (hmem k y).1 hk with ⟨hyx, rfl⟩ | ⟨hyx, hk⟩
    · rcases (hmem l y).1 hl with ⟨-, rfl⟩ | ⟨hne, -⟩
      · rfl
      · exact absurd hyx hne
    · rcases (hmem l y).1 hl with ⟨heq, -⟩ | ⟨-, hl⟩
      · exact absurd heq hyx
      · exact h.unique k l y hk hl

/-- **A new element** enters a part. -/
theorem insert (h : Partition parts all) (hx : x ∉ all)
    (hj : (parts' j).Perm (x :: parts j)) (hother : ∀ k, k ≠ j → parts' k = parts k) :
    Partition parts' (all ++ [x]) := by
  have hnot : ∀ k, x ∉ parts k := fun k hk => hx (h.mem_all k x hk)
  have hmem : ∀ k y, y ∈ parts' k ↔ (y = x ∧ k = j) ∨ y ∈ parts k := by
    intro k y
    by_cases hkj : k = j
    · subst hkj
      rw [hj.mem_iff, List.mem_cons]
      simp
    · rw [hother k hkj]
      simp [hkj]
  refine ⟨fun k => ?_, fun k y hy => ?_, fun y hy => ?_, fun k l y hk hl => ?_⟩
  · by_cases hkj : k = j
    · subst hkj
      rw [hj.nodup_iff]
      exact List.nodup_cons.2 ⟨hnot k, h.nodup k⟩
    · rw [hother k hkj]
      exact h.nodup k
  · rw [List.mem_append, List.mem_singleton]
    rcases (hmem k y).1 hy with ⟨rfl, -⟩ | hy
    · exact .inr rfl
    · exact .inl (h.mem_all k y hy)
  · rcases List.mem_append.1 hy with hy | hy
    · obtain ⟨k, hk⟩ := h.exists_mem y hy
      exact ⟨k, (hmem k y).2 (.inr hk)⟩
    · exact ⟨j, (hmem j y).2 (.inl ⟨List.mem_singleton.1 hy, rfl⟩)⟩
  · rcases (hmem k y).1 hk with ⟨rfl, rfl⟩ | hk
    · rcases (hmem l y).1 hl with ⟨-, rfl⟩ | hl
      · rfl
      · exact absurd hl (hnot l)
    · rcases (hmem l y).1 hl with ⟨rfl, rfl⟩ | hl
      · exact absurd hk (hnot k)
      · exact h.unique k l y hk hl

/-- **A whole part moves** to another one. -/
theorem moveAll (h : Partition parts all) (hij : i ≠ j) (hi : parts' i = [])
    (hj : parts' j = parts j ++ parts i) (hother : ∀ k, k ≠ i → k ≠ j → parts' k = parts k) :
    Partition parts' all := by
  have hmem : ∀ k y, y ∈ parts' k ↔ (k = j ∧ y ∈ parts i) ∨ (k ≠ i ∧ y ∈ parts k) := by
    intro k y
    by_cases hkj : k = j
    · subst hkj
      rw [hj, List.mem_append]
      simp [hij.symm, or_comm]
    · by_cases hki : k = i
      · subst hki
        simp [hi, hkj]
      · rw [hother k hki hkj]
        simp [hki, hkj]
  refine ⟨fun k => ?_, fun k y hy => ?_, fun y hy => ?_, fun k l y hk hl => ?_⟩
  · by_cases hkj : k = j
    · subst hkj
      rw [hj, List.nodup_append]
      exact ⟨h.nodup k, h.nodup i, fun a ha b hb hab => hij (h.unique i k b hb (hab ▸ ha))⟩
    · by_cases hki : k = i
      · subst hki
        rw [hi]
        exact List.nodup_nil
      · rw [hother k hki hkj]
        exact h.nodup k
  · rcases (hmem k y).1 hy with ⟨-, hy⟩ | ⟨-, hy⟩
    · exact h.mem_all i y hy
    · exact h.mem_all k y hy
  · obtain ⟨k, hk⟩ := h.exists_mem y hy
    by_cases hki : k = i
    · subst hki
      exact ⟨j, (hmem j y).2 (.inl ⟨rfl, hk⟩)⟩
    · exact ⟨k, (hmem k y).2 (.inr ⟨hki, hk⟩)⟩
  · rcases (hmem k y).1 hk with ⟨rfl, hk⟩ | ⟨hki, hk⟩
    · rcases (hmem l y).1 hl with ⟨rfl, -⟩ | ⟨hli, hl⟩
      · rfl
      · exact absurd (h.unique l i y hl hk) hli
    · rcases (hmem l y).1 hl with ⟨rfl, hl⟩ | ⟨-, hl⟩
      · exact absurd (h.unique k i y hk hl) hki
      · exact h.unique k l y hk hl

end Partition

end Opennop
