import Opennop.Lib.Chain
import Opennop.Session.Table

/-!
# One bucket of the session table

`BucketList t b l` says that the sessions `l` are linked both ways in bucket `b`, and nothing about
the rest of the table. `clearsession` takes one of them out, whichever of its four cases applies,
and `cleanuplist` walks over all of them: the dead ones go and each of the others is visited once.
-/

namespace Opennop

namespace Table

variable {A : Type} [DecidableEq A]

/-- The table after the session `n` at `a` has gone. -/
def removed (t : Table A) (a : A) (n : Node A) : Table A where
  heap x :=
    if x = a then none
    else (t.heap x).map fun m =>
      { m with
        next := if some x = n.prev then n.next else m.next
        prev := if some x = n.next then n.prev else m.prev }
  bucket b :=
    if b = n.head then
      { next := if n.prev = none then n.next else (t.bucket b).next
        prev := if n.next = none then n.prev else (t.bucket b).prev
        qlen := ((t.bucket b).qlen + 4294967295) % 4294967296 }
    else t.bucket b
  sessions i :=
    if i = n.session.queue then (t.sessions i + 4294967295) % 4294967296 else t.sessions i

theorem removed_next {t : Table A} {a x : A} {n : Node A} (hx : x ≠ a)
    (hm : ∃ m, t.heap x = some m) :
    (t.removed a n).next x = if some x = n.prev then n.next else t.next x := by
  obtain ⟨m, hm⟩ := hm
  simp only [next, removed, if_neg hx, hm, Option.map_some, Option.bind_some]

theorem removed_prev {t : Table A} {a x : A} {n : Node A} (hx : x ≠ a)
    (hm : ∃ m, t.heap x = some m) :
    (t.removed a n).prev x = if some x = n.next then n.prev else t.prev x := by
  obtain ⟨m, hm⟩ := hm
  simp only [prev, removed, if_neg hx, hm, Option.map_some, Option.bind_some]

/-- What `clearsession` does once the links are right: it counts the session out and frees it. -/
theorem removed_of_relinked {t t₁ : Table A} {a : A} {n : Node A}
    (hheap : ∀ x, x ≠ a → t₁.heap x = (t.removed a n).heap x)
    (hother : ∀ b, b ≠ n.head → t₁.bucket b = t.bucket b)
    (hhead : t₁.bucket n.head =
    { (t.removed a n).bucket n.head with qlen := (t.bucket n.head).qlen })
    (hsessions : t₁.sessions = t.sessions) :
    let h := t₁.bucket n.head
    let t₂ := t₁.setBucket n.head { h with qlen := (h.qlen + 4294967295) % 4294967296 }
    let t₃ := t₂.decrementWorkerSessions n.session.queue
    { t₃ with heap := Function.update t₃.heap a none } = t.removed a n := by
  intro h t₂ t₃
  ext1
  · funext x
    by_cases hx : x = a
    · simp [removed, hx]
    · rw [← hheap x hx]
      exact Function.update_of_ne hx _ _
  · funext b
    by_cases hb : b = n.head
    · subst hb
      refine (if_pos rfl).trans ?_
      simp [h, hhead, removed]
    · refine (if_neg hb).trans ((hother b hb).trans ?_)
      simp [removed, hb]
  · funext i
    change Function.update t₁.sessions n.session.queue
      ((t₁.sessions n.session.queue + 4294967295) % 4294967296) i = _
    by_cases hi : i = n.session.queue <;> simp [removed, hi, hsessions]

end Table

/-- The sessions `l` are the bucket `b`. -/
structure BucketList {A : Type} (t : Table A) (b : Nat) (l : List A) : Prop where
  /-- The two chains visit them in opposite orders. -/
  links : DList t.next t.prev (t.bucket b).next (t.bucket b).prev l
  /-- They are allocated, and know their bucket. -/
  alloc : ∀ a ∈ l, ∃ n, t.heap a = some n ∧ n.head = b

namespace BucketList

variable {A : Type} {t : Table A} {b : Nat} {l l₁ l₂ : List A} {a : A} {n : Node A}

/-! ## Neighbours -/

theorem at_middle (h : BucketList t b (l₁ ++ a :: l₂)) :
    ∃ n, t.heap a = some n ∧ n.head = b ∧ n.next = l₂.head? ∧ n.prev = l₁.getLast? := by
  obtain ⟨n, hn, hb⟩ := h.alloc a (by simp)
  have hnext := h.links.next_eq
  have hprev := h.links.prev_eq
  simp only [Table.next, Table.prev, hn, Option.bind_some] at hnext hprev
  exact ⟨n, hn, hb, hnext, hprev⟩

theorem neighbour (h : BucketList t b (l₁ ++ a :: l₂)) (hn : t.heap a = some n) {x : A}
    (hx : n.next = some x ∨ n.prev = some x) : x ≠ a ∧ ∃ m, t.heap x = some m ∧ m.head = b := by
  obtain ⟨n', hn', -, hnext, hprev⟩ := h.at_middle
  rw [hn, Option.some.injEq] at hn'
  subst hn'
  have hmem : x ∈ l₁ ++ l₂ := by
    rcases hx with hx | hx
    · rw [hnext] at hx
      exact List.mem_append_right _ (List.mem_of_head? hx)
    · rw [hprev] at hx
      exact List.mem_append_left _ (List.mem_of_getLast? hx)
  have hnodup := h.links.nodup
  rw [List.nodup_middle, List.nodup_cons] at hnodup
  refine ⟨fun hxa => hnodup.1 (hxa ▸ hmem), h.alloc x ?_⟩
  rcases List.mem_append.1 hmem with hm | hm
  · exact List.mem_append_left _ hm
  · exact List.mem_append_right _ (List.mem_cons_of_mem a hm)

theorem next_ne_prev (h : BucketList t b (l₁ ++ a :: l₂)) (hn : t.heap a = some n) {x y : A}
    (hx : n.next = some x) (hy : n.prev = some y) : x ≠ y := by
  obtain ⟨n', hn', -, hnext, hprev⟩ := h.at_middle
  rw [hn, Option.some.injEq] at hn'
  subst hn'
  have hnodup := h.links.nodup
  rw [List.nodup_append] at hnodup
  rw [hnext] at hx
  rw [hprev] at hy
  intro hxy
  exact hnodup.2.2 y (List.mem_of_getLast? hy) x
    (List.mem_cons_of_mem _ (List.mem_of_head? hx)) hxy.symm

/-! ## Taking a session out -/

variable [DecidableEq A]

/-- **`clearsession` in all its cases.** -/
theorem clearsession_eq (h : BucketList t b (l₁ ++ a :: l₂)) (hn : t.heap a = some n) :
    clearsession t a = .ok (t.removed a n) := by
  unfold clearsession
  simp only [Table.load, hn, ok_bind]
  cases hnext : n.next with
  | none =>
    cases hprev : n.prev with
    | none =>
      refine congrArg Except.ok (Table.removed_of_relinked (fun x hx => ?_) (fun b hb => ?_) ?_ rfl)
      · simp [Table.setBucket, Table.removed, hx, hnext, hprev]
      · exact if_neg hb
      · simp [Table.setBucket, Table.removed, hnext, hprev]
    | some y =>
      obtain ⟨hy, m, hm, -⟩ := h.neighbour hn (.inr hprev)
      simp only [Table.setNext, Table.load, hm, ok_bind, pure_eq_ok]
      refine congrArg Except.ok (Table.removed_of_relinked (fun x hx => ?_) (fun b hb => ?_) ?_ rfl)
      · by_cases hxy : x = y <;>
          simp [Table.setBucket, Table.store, Table.removed, hx, hxy, hy, hnext, hprev, hm]
      · exact if_neg hb
      · simp [Table.setBucket, Table.store, Table.removed, hnext, hprev]
  | some x =>
    obtain ⟨hx, m, hm, -⟩ := h.neighbour hn (.inl hnext)
    cases hprev : n.prev with
    | none =>
      simp only [Table.setPrev, Table.load, hm, ok_bind, pure_eq_ok]
      refine congrArg Except.ok (Table.removed_of_relinked (fun z hz => ?_) (fun b hb => ?_) ?_ rfl)
      · by_cases hzx : z = x <;>
          simp [Table.setBucket, Table.store, Table.removed, hz, hzx, hx, hnext, hprev, hm]
      · exact if_neg hb
      · simp [Table.setBucket, Table.store, Table.removed, hnext, hprev]
    | some y =>
      obtain ⟨hy, m', hm', -⟩ := h.neighbour hn (.inr hprev)
      have hxy := h.next_ne_prev hn hnext hprev
      simp only [Table.setPrev, Table.setNext, Table.load, Table.store, hm, hm',
        Function.update_of_ne hxy, ok_bind, pure_eq_ok]
      refine congrArg Except.ok
        (Table.removed_of_relinked (fun z hz => ?_) (fun b hb => rfl) ?_ rfl)
      · by_cases hzx : z = x
        · subst hzx
          simp [Table.removed, hx, hxy, hnext, hprev, hm]
        · by_cases hzy : z = y <;>
            simp [Table.removed, hz, hzx, hzy, hy, hxy.symm, hnext, hprev, hm']
      · simp [Table.removed, hnext, hprev]

theorem removed (h : BucketList t b (l₁ ++ a :: l₂)) (hn : t.heap a = some n) :
    BucketList (t.removed a n) b (l₁ ++ l₂) := by
  obtain ⟨n', hn', hb, -, -⟩ := h.at_middle
  rw [hn, Option.some.injEq] at hn'
  subst hn'
  have hnodup := h.links.nodup
  rw [List.nodup_middle, List.nodup_cons] at hnodup
  have hne : ∀ x ∈ l₁ ++ l₂, x ≠ a := fun x hx hxa => hnodup.1 (hxa ▸ hx)
  have hmem : ∀ x ∈ l₁ ++ l₂, ∃ m, t.heap x = some m ∧ m.head = b := by
    intro x hx
    refine h.alloc x ?_
    rcases List.mem_append.1 hx with hx | hx
    · exact List.mem_append_left _ hx
    · exact List.mem_append_right _ (List.mem_cons_of_mem a hx)
  have hheap : ∀ x ∈ l₁ ++ l₂, ∃ m, t.heap x = some m :=
    fun x hx => (hmem x hx).imp fun _ hm => hm.1
  have hnext : t.next a = n.next := by simp [Table.next, hn]
  have hprev : t.prev a = n.prev := by simp [Table.prev, hn]
  constructor
  · subst hb
    simp only [Table.removed, if_true, ← hnext, ← hprev]
    refine h.links.remove (fun x hx => ?_) fun x hx => ?_
    · rw [hnext, hprev]
      exact Table.removed_next (hne x hx) (hheap x hx)
    · rw [hnext, hprev]
      exact Table.removed_prev (hne x hx) (hheap x hx)
  · intro x hx
    obtain ⟨m, hm, hmb⟩ := hmem x hx
    simp only [Table.removed, if_neg (hne x hx), hm, Option.map_some]
    exact ⟨_, rfl, hmb⟩

/-! ## The walk of the sweep -/

/-- The table after the walk has been at the session `n` at `a`. -/
def swept (t : Table A) (a : A) (n : Node A) : Table A :=
  if n.session.deadcounter > 2 then t.removed a n
  else t.store a { n with session := age n.session }

omit [DecidableEq A] in
/-- Where the walk goes on from the table `t`, with the sessions `l` left. -/
def goesOn (t : Table A) : List A → Pass (Table A × A) (Table A)
  | [] => .done t
  | x :: _ => .again (t, x)

/-- **One pass of the walk**: it goes on with the session that followed. A dead session is cleared
through the `prev` of the next one, which is itself. -/
theorem cleanuplistPass_eq (h : BucketList t b (l₁ ++ a :: l₂)) (hn : t.heap a = some n) :
    cleanuplistPass (t, a) = .ok (goesOn (swept t a n) l₂) := by
  obtain ⟨n', hn', -, hnext, -⟩ := h.at_middle
  rw [hn, Option.some.injEq] at hn'
  subst hn'
  unfold cleanuplistPass swept
  by_cases hd : n.session.deadcounter > 2
  · simp only [Table.load, hn, ok_bind, if_pos hd, hnext]
    cases l₂ with
    | nil => simp [h.clearsession_eq hn, goesOn]
    | cons x l₂ =>
      have h' : BucketList t b ((l₁ ++ [a]) ++ x :: l₂) := by
        rwa [List.append_assoc, List.singleton_append]
      obtain ⟨m, hm, -, -, hmprev⟩ := h'.at_middle
      simp [hm, hmprev, h.clearsession_eq hn, goesOn]
  · simp only [Table.load, hn, ok_bind, if_neg hd, hnext]
    cases l₂ <;> rfl

end BucketList

namespace Table

variable {A : Type}

def record (t : Table A) (a : A) : Option Session := (t.heap a).map (·.session)

/-- The session at `a` has not answered three times. -/
def dead (t : Table A) (a : A) : Bool := (t.record a).any fun s => s.deadcounter > 2

end Table

/-- The record of a session after a sweep: none if it was dead. -/
def sweepSession (s : Session) : Option Session := if s.deadcounter > 2 then none else some (age s)

/-- What the visit to `a`, between `l₁` and `l₂`, does. -/
structure Visited {A : Type} (t t' : Table A) (b : Nat) (l₁ : List A) (a : A) (l₂ : List A) :
    Prop where
  list : BucketList t' b (l₁ ++ [a].filter (fun x => !t.dead x) ++ l₂)
  self : t'.record a = (t.record a).bind sweepSession
  others : ∀ x, x ≠ a → t'.record x = t.record x
  outside : ∀ x, x ∉ l₁ ++ a :: l₂ → t'.heap x = t.heap x
  buckets : ∀ b', b' ≠ b → t'.bucket b' = t.bucket b'
  qlen : ∀ k, (t.bucket b).qlen = k + 1 → k + 1 < 4294967296 →
    (t'.bucket b).qlen = k + ([a].filter fun x => !t.dead x).length

/-- What the walk over the rest `l` of a bucket does; `l₁` are the sessions before. -/
structure Walked {A : Type} (t t' : Table A) (b : Nat) (l₁ l : List A) : Prop where
  list : BucketList t' b (l₁ ++ l.filter fun x => !t.dead x)
  visited : ∀ x ∈ l, t'.record x = (t.record x).bind sweepSession
  others : ∀ x, x ∉ l → t'.record x = t.record x
  outside : ∀ x, x ∉ l₁ ++ l → t'.heap x = t.heap x
  buckets : ∀ b', b' ≠ b → t'.bucket b' = t.bucket b'
  qlen : (t.bucket b).qlen = (l₁ ++ l).length → (l₁ ++ l).length < 4294967296 →
    (t'.bucket b).qlen = (l₁ ++ l.filter fun x => !t.dead x).length

namespace BucketList

variable {A : Type} {t t₁ t' : Table A} {b : Nat} {l l₁ l₂ : List A} {a : A} {n : Node A}

theorem dead_eq (hn : t.heap a = some n) : t.dead a = decide (n.session.deadcounter > 2) := by
  simp [Table.dead, Table.record, hn]

theorem dead_congr {x : A} (h : t'.record x = t.record x) : t'.dead x = t.dead x := by
  unfold Table.dead
  rw [h]

variable [DecidableEq A]

theorem visited_removed (h : BucketList t b (l₁ ++ a :: l₂)) (hn : t.heap a = some n)
    (hd : n.session.deadcounter > 2) : Visited t (t.removed a n) b l₁ a l₂ := by
  obtain ⟨n', hn', hb, hnext, hprev⟩ := h.at_middle
  rw [hn, Option.some.injEq] at hn'
  subst hn'
  have hnone : [a].filter (fun x => !t.dead x) = [] := by
    simp [dead_eq hn, hd]
  refine ⟨?_, ?_, fun x hx => ?_, fun x hx => ?_, fun b' hb' => ?_, fun k hq hk => ?_⟩
  · rw [hnone, List.append_nil]
    exact h.removed hn
  · simp [Table.record, Table.removed, hn, sweepSession, hd]
  · simp only [Table.record, Table.removed, if_neg hx, Option.map_map]
    rfl
  · -- the blocks that are written are the neighbours, which are in the list
    have hne : ∀ y ∈ l₁ ++ a :: l₂, x ≠ y := fun y hy hxy => hx (hxy ▸ hy)
    have hp : some x ≠ n.prev := by
      rw [hprev]
      intro heq
      exact hne x (List.mem_append_left _ (List.mem_of_getLast? heq.symm)) rfl
    have hq : some x ≠ n.next := by
      rw [hnext]
      intro heq
      exact hne x
        (List.mem_append_right _ (List.mem_cons_of_mem a (List.mem_of_head? heq.symm))) rfl
    simp only [Table.removed, if_neg (hne a (by simp)), if_neg hp, if_neg hq]
    cases t.heap x <;> rfl
  · rw [← hb] at hb'
    simp [Table.removed, hb']
  · rw [hnone, List.length_nil]
    simp only [Table.removed, hb, if_true, hq]
    omega

theorem visited_aged (h : BucketList t b (l₁ ++ a :: l₂)) (hn : t.heap a = some n)
    (hd : ¬ n.session.deadcounter > 2) :
    Visited t (t.store a { n with session := age n.session }) b l₁ a l₂ := by
  have hself : [a].filter (fun x => !t.dead x) = [a] := by
    simp [dead_eq hn, hd]
  have hnext : (t.store a { n with session := age n.session }).next = t.next := by
    funext x
    by_cases hx : x = a <;> simp [Table.next, Table.store, hx, hn]
  have hprev : (t.store a { n with session := age n.session }).prev = t.prev := by
    funext x
    by_cases hx : x = a <;> simp [Table.prev, Table.store, hx, hn]
  refine ⟨?_, ?_, fun x hx => ?_, fun x hx => ?_, fun b' hb' => rfl, fun k hq hk => ?_⟩
  · rw [hself, List.append_assoc, List.singleton_append]
    refine ⟨?_, fun x hx => ?_⟩
    · rw [hnext, hprev]
      exact h.links
    · obtain ⟨m, hm, hb⟩ := h.alloc x hx
      by_cases hxa : x = a
      · subst hxa
        rw [hn, Option.some.injEq] at hm
        subst hm
        exact ⟨_, Function.update_self .., hb⟩
      · exact ⟨m, (Function.update_of_ne hxa _ _).trans hm, hb⟩
  · simp [Table.record, Table.store, hn, sweepSession, hd]
  · simp [Table.record, Table.store, hx]
  · have hne : x ≠ a := fun hxa => hx (by simp [hxa])
    exact Function.update_of_ne hne _ _
  · rw [hself]
    exact hq

theorem visited_swept (h : BucketList t b (l₁ ++ a :: l₂)) (hn : t.heap a = some n) :
    Visited t (swept t a n) b l₁ a l₂ := by
  unfold swept
  by_cases hd : n.session.deadcounter > 2
  · rw [if_pos hd]
    exact h.visited_removed hn hd
  · rw [if_neg hd]
    exact h.visited_aged hn hd

omit [DecidableEq A] in
theorem walked_nil (h : BucketList t b l₁) : Walked t t b l₁ [] := by
  refine ⟨?_, fun x hx => (nomatch hx), fun _ _ => rfl, fun _ _ => rfl, fun _ _ => rfl,
    fun hq _ => ?_⟩
  · rwa [List.filter_nil, List.append_nil]
  · rw [hq, List.filter_nil]

omit [DecidableEq A] in
theorem walked_cons (hv : Visited t t₁ b l₁ a l₂) (ha : a ∉ l₂)
    (hw : Walked t₁ t' b (l₁ ++ [a].filter fun x => !t.dead x) l₂) :
    Walked t t' b l₁ (a :: l₂) := by
  have hfilter : (a :: l₂).filter (fun x => !t.dead x) =
      [a].filter (fun x => !t.dead x) ++ l₂.filter fun x => !t₁.dead x := by
    rw [← List.singleton_append, List.filter_append]
    congr 1
    refine List.filter_congr fun x hx => ?_
    have hne : x ≠ a := fun hxa => ha (hxa ▸ hx)
    rw [dead_congr (hv.others x hne)]
  have hsub : ∀ x ∈ [a].filter (fun x => !t.dead x), x = a := fun x hx =>
    List.mem_singleton.1 (List.mem_of_mem_filter hx)
  refine ⟨?_, fun x hx => ?_, fun x hx => ?_, fun x hx => ?_, fun b' hb' => ?_, fun hq hlt => ?_⟩
  · rw [hfilter, ← List.append_assoc]
    exact hw.list
  · rcases List.mem_cons.1 hx with rfl | hx
    · rw [hw.others x ha, hv.self]
    · have hne : x ≠ a := fun hxa => ha (hxa ▸ hx)
      rw [hw.visited x hx, hv.others x hne]
  · rw [List.mem_cons, not_or] at hx
    rw [hw.others x hx.2, hv.others x hx.1]
  · refine (hw.outside x fun hx' => hx ?_).trans (hv.outside x hx)
    rcases List.mem_append.1 hx' with hx' | hx'
    · rcases List.mem_append.1 hx' with hx' | hx'
      · exact List.mem_append_left _ hx'
      · simp [hsub x hx']
    · exact List.mem_append_right _ (List.mem_cons_of_mem a hx')
  · rw [hw.buckets b' hb', hv.buckets b' hb']
  · rw [List.length_append, List.length_cons] at hq hlt
    have hle : ([a].filter fun x => !t.dead x).length ≤ 1 := List.length_filter_le _ _
    have hqlen := hv.qlen (l₁.length + l₂.length) (by omega) (by omega)
    rw [hw.qlen (by simp only [List.length_append]; omega)
      (by simp only [List.length_append]; omega), hfilter, List.append_assoc]

/-- **The walk** from a session to the end of the bucket. -/
theorem cleanuplist_loop {l₂ : List A} : ∀ {t : Table A} {l₁ : List A} {a : A} {fuel : Nat},
    BucketList t b (l₁ ++ a :: l₂) → l₂.length < fuel →
      ∃ t', loop cleanuplistPass fuel (t, a) = .ok t' ∧ Walked t t' b l₁ (a :: l₂) := by
  induction l₂ with
  | nil =>
    intro t l₁ a fuel h hfuel
    obtain ⟨fuel, rfl⟩ : ∃ m, fuel = m + 1 := ⟨fuel - 1, by omega⟩
    obtain ⟨n, hn, -⟩ := h.alloc a (by simp)
    have hv := h.visited_swept hn
    have hlist := hv.list
    rw [List.append_nil] at hlist
    exact ⟨swept t a n, loop_done (h.cleanuplistPass_eq hn),
      walked_cons hv List.not_mem_nil (walked_nil hlist)⟩
  | cons x l₂ ih =>
    intro t l₁ a fuel h hfuel
    rw [List.length_cons] at hfuel
    obtain ⟨fuel, rfl⟩ : ∃ m, fuel = m + 1 := ⟨fuel - 1, by omega⟩
    obtain ⟨n, hn, -⟩ := h.alloc a (by simp)
    have hv := h.visited_swept hn
    have ha : a ∉ x :: l₂ := by
      have hnodup := h.links.nodup
      rw [List.nodup_append] at hnodup
      exact (List.nodup_cons.1 hnodup.2.1).1
    obtain ⟨t', hloop, hw⟩ := ih hv.list (show l₂.length < fuel by omega)
    refine ⟨t', ?_, walked_cons hv ha hw⟩
    rw [loop_again (h.cleanuplistPass_eq hn)]
    exact hloop

theorem cleanuplist [Fintype A] (h : BucketList t b l) :
    ∃ t', Opennop.cleanuplist t b = .ok t' ∧ Walked t t' b [] l := by
  have hlen : l.length ≤ Fintype.card A := h.links.nodup.length_le_card
  unfold Opennop.cleanuplist
  rw [h.links.head_eq]
  cases l with
  | nil => exact ⟨t, rfl, walked_nil h⟩
  | cons a l =>
    rw [List.length_cons] at hlen
    have h' : BucketList t b ([] ++ a :: l) := h
    exact h'.cleanuplist_loop (show l.length < Fintype.card A + 1 by omega)

end BucketList

/-! ## What the sweep is for -/

/-- A session that stays: another sweep without an answer is counted if an endpoint has been silent,
and the sequence numbers are kept for the next sweep. -/
def visit (s : Session) : Session :=
  { s with
    deadcounter :=
      if s.larger.sequence = s.larger.previoussequence ∨
          s.smaller.sequence = s.smaller.previoussequence then s.deadcounter + 1 else 0
    larger := { s.larger with previoussequence := s.larger.sequence }
    smaller := { s.smaller with previoussequence := s.smaller.sequence } }

/-- The 8-bit counter does not wrap around at a session that stays. -/
theorem age_eq_visit {s : Session} (h : s.deadcounter ≤ 2) : age s = visit s := by
  have hmod : (s.deadcounter + 1) % 256 = s.deadcounter + 1 := Nat.mod_eq_of_lt (by omega)
  unfold age visit
  by_cases hl : s.larger.sequence = s.larger.previoussequence
  · simp [hl, hmod]
  · by_cases hs : s.smaller.sequence = s.smaller.previoussequence <;> simp [hl, hs, hmod]

/-- The bucket after a sweep, against the bucket before it. -/
structure SweptBucket {A : Type} (t t' : Table A) (b : Nat) (l : List A) : Prop where
  kept : BucketList t' b (l.filter fun a => !t.dead a)
  gone : ∀ a ∈ l, t.dead a = true → t'.heap a = none
  visited : ∀ a ∈ l, ∀ s, t.record a = some s → s.deadcounter ≤ 2 → t'.record a = some (visit s)
  others : ∀ a, a ∉ l → t'.heap a = t.heap a
  buckets : ∀ b', b' ≠ b → t'.bucket b' = t.bucket b'
  qlen : (t.bucket b).qlen = l.length → l.length < 4294967296 →
    (t'.bucket b).qlen = (l.filter fun a => !t.dead a).length

/-- **A sweep removes exactly the dead sessions** of its bucket and visits each of the others
once. -/
theorem cleanuplist_swept {A : Type} [DecidableEq A] [Fintype A] (t : Table A) (b : Nat)
    (l : List A) (h : BucketList t b l) :
    ∃ t', cleanuplist t b = .ok t' ∧ SweptBucket t t' b l := by
  obtain ⟨t', ht', hw⟩ := h.cleanuplist
  refine ⟨t', ht', hw.list, fun a ha hd => ?_, fun a ha s hs hle => ?_, hw.outside,
    hw.buckets, hw.qlen⟩
  · obtain ⟨n, hn, -⟩ := h.alloc a ha
    rw [BucketList.dead_eq hn, decide_eq_true_eq] at hd
    have hsession := hw.visited a ha
    rw [Table.record, Table.record, hn, Option.map_some, Option.bind_some, sweepSession, if_pos hd,
      Option.map_eq_none_iff] at hsession
    exact hsession
  · have hlt : ¬ s.deadcounter > 2 := Nat.not_lt.2 hle
    rw [hw.visited a ha, hs, Option.bind_some, sweepSession, if_neg hlt, age_eq_visit hle]

/-- Five sessions of one bucket: all but the second are dead. -/
def deadAndIdle : Table (Fin 5) where
  heap a := some
    { head := 7
      next := if a = 4 then none else some (a + 1)
      prev := if a = 0 then none else some (a - 1)
      session :=
        { larger := { address := 2, port := 1, sequence := 5 }
          smaller := { address := 1, port := 1 }
          deadcounter := if a = 1 then 2 else 3
          queue := 0 } }
  bucket b := if b = 7 then ⟨some 0, some 4, 5⟩ else {}
  sessions _ := 5

theorem cleanuplist_swept_deadAndIdle :
    ∃ t', cleanuplist deadAndIdle 7 = .ok t' ∧ BucketList t' 7 [1] ∧ t'.heap 4 = none := by
  have h : BucketList deadAndIdle 7 [0, 1, 2, 3, 4] := by
    refine ⟨⟨by decide, ⟨rfl, rfl, rfl, rfl, rfl, rfl⟩, ⟨rfl, rfl, rfl, rfl, rfl, rfl⟩⟩,
      fun a _ => ?_⟩
    exact ⟨_, rfl, rfl⟩
  obtain ⟨t', ht', hs⟩ := cleanuplist_swept deadAndIdle 7 [0, 1, 2, 3, 4] h
  exact ⟨t', ht', hs.kept, hs.gone 4 (by decide) rfl⟩

end Opennop
