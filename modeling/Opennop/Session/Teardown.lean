import Opennop.Session.Passes

/-!
# Freeing the session table (`opennopd/sessionmanager.c`)

When the daemon exits, `clear_sessiontable` frees the sessions bucket by bucket. `freemem` walks a
bucket and frees each session when it has come to the next one, through the `prev` of that; the last
one it frees at the end. `free` of a block that is not allocated is a fault here, as is any use of
one.
-/

namespace Opennop

section Free

variable {A : Type} [DecidableEq A]

/-- `free` -/
def Table.free (t : Table A) (a : A) : Exec (Table A) := do
  let _ ← t.load a
  return { t with heap := Function.update t.heap a none }

/-- The session before the current one is freed. -/
def Table.freePrev (t : Table A) (cur : A) (n : Node A) : Exec (Table A) :=
  match n.prev with
  | some prev => do
    let t ← t.free prev
    t.setPrev cur none
  | none => .ok t

/-- One test of the condition of the loop of `freemem`, and the pass after it. -/
def freememPass (b : Nat) : Table A × Option A → Exec (Pass (Table A × Option A) (Table A))
  | (t, currentsession) =>
    match (t.bucket b).next, currentsession with
    | none, _ => return .done t
    | some _, none => .error .segv
    | some _, some cur => do
      let n ← t.load cur
      let t ← t.freePrev cur n
      let n ← t.load cur
      match n.next with
      | some next => return .again (t, some next)
      | none => do
        let t ← t.free cur
        return .again (t.setBucket b { t.bucket b with next := none, prev := none }, none)

/-- `freemem` of bucket `b` -/
def freemem [Fintype A] (t : Table A) (b : Nat) : Exec (Table A) :=
  match (t.bucket b).next with
  | none => .ok t
  | some a => loop (freememPass b) (Fintype.card A + 2) (t, some a)

/-- The loop of `clear_sessiontable` over the buckets, below `n` -/
def clearBuckets [Fintype A] (t : Table A) : Nat → Exec (Table A)
  | 0 => .ok t
  | n + 1 => do
    let t ← clearBuckets t n
    match (t.bucket n).next with
    | some _ => freemem t n
    | none => return t

/-- `clear_sessiontable` -/
def clearSessiontable [Fintype A] (t : Table A) : Exec (Table A) := clearBuckets t sessionBuckets

end Free

namespace BucketList

variable {A : Type} [DecidableEq A] {t u : Table A} {b : Nat} {l l₁ l₂ : List A} {a : A}

/-- The table after the sessions `l` of bucket `b` have been freed. -/
def freed (t : Table A) (b : Nat) (l : List A) : Table A where
  heap x := if x ∈ l then none else t.heap x
  bucket x := if x = b then { t.bucket b with next := none, prev := none } else t.bucket x
  sessions := t.sessions

/-- The walk has come past `l₁`: all of them are free but the last. -/
structure Freeing (t u : Table A) (l₁ : List A) : Prop where
  free : ∀ x ∈ l₁.dropLast, u.heap x = none
  last : ∀ x, l₁.getLast? = some x → u.heap x ≠ none
  rest : ∀ x, x ∉ l₁ → u.heap x = t.heap x
  bucket : u.bucket = t.bucket
  sessions : u.sessions = t.sessions

omit [DecidableEq A] in
theorem Freeing.nil (t : Table A) : Freeing t t [] :=
  ⟨nofun, nofun, fun _ _ => rfl, rfl, rfl⟩

/-- The walk at `a`, after what precedes has been freed. -/
structure Freed (t v : Table A) (l₁ l₂ : List A) (a : A) : Prop where
  free : ∀ x ∈ l₁, v.heap x = none
  here : ∃ m, v.heap a = some m ∧ m.next = l₂.head?
  rest : ∀ x, x ∉ l₁ → x ≠ a → v.heap x = t.heap x
  bucket : v.bucket = t.bucket
  sessions : v.sessions = t.sessions

theorem Freeing.freePrev (h : BucketList t b (l₁ ++ a :: l₂)) (hf : Freeing t u l₁) {n : Node A}
    (hn : u.heap a = some n) : ∃ v, u.freePrev a n = .ok v ∧ Freed t v l₁ l₂ a := by
  unfold Table.freePrev
  have hnodup := h.links.nodup
  rw [List.nodup_middle, List.nodup_cons, List.mem_append, not_or] at hnodup
  obtain ⟨n', hn', -, hnext, hprev⟩ := h.at_middle
  obtain rfl : n = n' := Option.some.inj (hn.symm.trans ((hf.rest a hnodup.1.1).trans hn'))
  rcases List.eq_nil_or_concat l₁ with rfl | ⟨l₀, p, rfl⟩
  · rw [List.getLast?_nil] at hprev
    rw [hprev]
    exact ⟨u, rfl, nofun, ⟨n, hn, hnext⟩, fun x hx _ => hf.rest x hx, hf.bucket, hf.sessions⟩
  · rw [List.concat_eq_append] at hprev hf hnodup ⊢
    rw [List.getLast?_concat] at hprev
    have hpa : a ≠ p := fun hap => hnodup.1.1 (by simp [hap])
    obtain ⟨m, hm⟩ := Option.ne_none_iff_exists'.1 (hf.last p List.getLast?_concat)
    have hload : Function.update u.heap p none a = some n := by
      rw [Function.update_of_ne hpa, hn]
    rw [hprev]
    refine ⟨⟨Function.update (Function.update u.heap p none) a
      (some { n with prev := none }), u.bucket, u.sessions⟩, ?_, ?_, ?_, ?_, hf.bucket, hf.sessions⟩
    · simp only [Table.free, Table.load, hm, ok_bind, pure_eq_ok, Table.setPrev, hload, Table.store]
    · intro x hx
      have hxa : x ≠ a := fun hxa => hnodup.1.1 (hxa ▸ hx)
      dsimp only
      rw [Function.update_of_ne hxa]
      by_cases hxp : x = p
      · rw [hxp, Function.update_self]
      · rw [Function.update_of_ne hxp]
        refine hf.free x ?_
        rw [List.dropLast_concat]
        exact (List.mem_append.1 hx).resolve_right fun h' => hxp (List.mem_singleton.1 h')
    · exact ⟨{ n with prev := none }, Function.update_self _ _ _, hnext⟩
    · intro x hx hxa
      have hxp : x ≠ p := fun hxp => hx (by simp [hxp])
      dsimp only
      rw [Function.update_of_ne hxa, Function.update_of_ne hxp, hf.rest x hx]

omit [DecidableEq A] in
theorem Freed.freeing {v : Table A} {x : A} (h : Freed t v l₁ (x :: l₂) a) :
    Freeing t v (l₁ ++ [a]) where
  free y hy := by
    rw [List.dropLast_concat] at hy
    exact h.free y hy
  last y hy := by
    rw [List.getLast?_concat] at hy
    cases hy
    obtain ⟨m, hm, -⟩ := h.here
    rw [hm]
    exact nofun
  rest y hy := by
    rw [List.mem_append, not_or, List.mem_singleton] at hy
    exact h.rest y hy.1 hy.2
  bucket := h.bucket
  sessions := h.sessions

theorem Freed.freed {v : Table A} (h : Freed t v l₁ [] a) :
    Table.setBucket { v with heap := Function.update v.heap a none } b
      { v.bucket b with next := none, prev := none } = freed t b (l₁ ++ [a]) := by
  ext1
  · funext x
    change Function.update v.heap a none x = if x ∈ l₁ ++ [a] then none else t.heap x
    by_cases hxa : x = a
    · rw [hxa, Function.update_self, if_pos (by simp)]
    · rw [Function.update_of_ne hxa]
      by_cases hx : x ∈ l₁
      · rw [h.free x hx, if_pos (List.mem_append_left _ hx)]
      · rw [h.rest x hx hxa, if_neg (by simp [hx, hxa])]
  · unfold Table.setBucket BucketList.freed
    rw [h.bucket]
  · exact h.sessions

/-- **One pass.** -/
theorem freememPass_eq (h : BucketList t b (l₁ ++ a :: l₂)) (hf : Freeing t u l₁) :
    ∃ v, Freed t v l₁ l₂ a ∧ freememPass b (u, some a) = .ok (.again
      (match l₂ with
        | x :: _ => (v, some x)
        | [] => (freed t b (l₁ ++ [a]), none))) := by
  obtain ⟨c, hc⟩ : ∃ c, (u.bucket b).next = some c := by
    rw [hf.bucket, h.links.head_eq, List.head?_append, List.head?_cons]
    cases l₁.head? <;> exact ⟨_, rfl⟩
  have hnodup := h.links.nodup
  rw [List.nodup_middle, List.nodup_cons, List.mem_append, not_or] at hnodup
  obtain ⟨n, hn, -⟩ := h.at_middle
  have hload : u.heap a = some n := (hf.rest a hnodup.1.1).trans hn
  obtain ⟨v, hv, hfreed⟩ := Freeing.freePrev h hf hload
  obtain ⟨m, hm, hnext⟩ := hfreed.here
  refine ⟨v, hfreed, ?_⟩
  unfold freememPass
  dsimp only
  rw [hc]
  simp only [Table.load, hload, ok_bind]
  rw [hv]
  simp only [ok_bind, hm, hnext]
  cases l₂ with
  | nil =>
    simp only [List.head?_nil, Table.free, Table.load, hm, ok_bind, pure_eq_ok]
    exact congrArg (fun t => Except.ok (Pass.again (t, none))) hfreed.freed
  | cons x l₂ => rfl

/-- **The walk** from a session to the end of the bucket. -/
theorem freemem_loop {l₂ : List A} : ∀ {u : Table A} {l₁ : List A} {a : A} {fuel : Nat},
    BucketList t b (l₁ ++ a :: l₂) → Freeing t u l₁ → l₂.length + 1 < fuel →
      loop (freememPass b) fuel (u, some a) = .ok (freed t b (l₁ ++ a :: l₂)) := by
  induction l₂ with
  | nil =>
    intro u l₁ a fuel h hf hfuel
    obtain ⟨fuel, rfl⟩ : ∃ k, fuel = k + 2 := ⟨fuel - 2, by omega⟩
    obtain ⟨v, -, hpass⟩ := h.freememPass_eq hf
    rw [loop_again hpass, loop_done]
    -- the head is null now
    have hnull : ((freed t b (l₁ ++ [a])).bucket b).next = none := by
      unfold freed
      dsimp only
      rw [if_pos rfl]
    unfold freememPass
    dsimp only
    rw [hnull]
    rfl
  | cons x l₂ ih =>
    intro u l₁ a fuel h hf hfuel
    rw [List.length_cons] at hfuel
    obtain ⟨fuel, rfl⟩ : ∃ k, fuel = k + 1 := ⟨fuel - 1, by omega⟩
    obtain ⟨v, hfreed, hpass⟩ := h.freememPass_eq hf
    have h' : BucketList t b ((l₁ ++ [a]) ++ x :: l₂) := by
      rwa [List.append_assoc, List.singleton_append]
    rw [loop_again hpass, ih h' hfreed.freeing (by omega), List.append_assoc, List.singleton_append]

/-- **`freemem` frees every session of its bucket once**, and nothing else. -/
theorem freemem [Fintype A] (h : BucketList t b l) (hl : l ≠ []) :
    Opennop.freemem t b = .ok (freed t b l) := by
  have hlen : l.length ≤ Fintype.card A := h.links.nodup.length_le_card
  unfold Opennop.freemem
  rw [h.links.head_eq]
  cases l with
  | nil => exact absurd rfl hl
  | cons a l =>
    rw [List.length_cons] at hlen
    have h' : BucketList t b ([] ++ a :: l) := h
    exact freemem_loop h' (Freeing.nil t) (by omega)

end BucketList

namespace Table

variable {A : Type} {t : Table A}

/-- The table after the buckets below `n` have been cleared. -/
def cleared (t : Table A) (n : Nat) : Table A where
  heap x := (t.heap x).bind fun m => if m.head < n then none else some m
  bucket b := if b < n then { qlen := (t.bucket b).qlen } else t.bucket b
  sessions := t.sessions

theorem cleared_zero (t : Table A) : t.cleared 0 = t := by
  ext1
  · funext x
    simp [cleared]
  · funext b
    simp [cleared]
  · rfl

end Table

namespace Refines

variable {A : Type} [DecidableEq A] {t : Table A} {σ : Store A}

omit [DecidableEq A] in
theorem bucketList_cleared (h : Refines t σ) {n b : Nat} (hb : n ≤ b) :
    BucketList (t.cleared n) b (σ.inBucket b) := by
  have hheap : ∀ a ∈ σ.inBucket b, (t.cleared n).heap a = t.heap a := by
    intro a ha
    obtain ⟨m, hm, rfl⟩ := h.heap_of_mem_bucket ha
    change (t.heap a).bind _ = t.heap a
    rw [hm, Option.bind_some, if_neg (Nat.not_lt.2 hb)]
  have hbucket : (t.cleared n).bucket b = t.bucket b := if_neg (Nat.not_lt.2 hb)
  refine ⟨?_, fun a ha => ?_⟩
  · rw [hbucket]
    refine (h.links b).congr (fun a ha => ?_) fun a ha => ?_
    · rw [Table.next, Table.next, hheap a ha]
    · rw [Table.prev, Table.prev, hheap a ha]
  · rw [hheap a ha]
    exact h.heap_of_mem_bucket ha

theorem freed_cleared (h : Refines t σ) (n : Nat) :
    BucketList.freed (t.cleared n) n (σ.inBucket n) = t.cleared (n + 1) := by
  ext1
  · funext x
    change (if x ∈ σ.inBucket n then none else (t.cleared n).heap x) = (t.cleared (n + 1)).heap x
    unfold Table.cleared
    dsimp only
    cases hx : t.heap x with
    | none => simp
    | some m =>
      rw [Option.bind_some, Option.bind_some]
      by_cases hhead : m.head = n
      · rw [if_pos ((h.mem_bucket_iff hx).2 hhead), if_pos (by omega)]
      · rw [if_neg fun hmem => hhead ((h.mem_bucket_iff hx).1 hmem)]
        by_cases hlt : m.head < n
        · rw [if_pos hlt, if_pos (by omega)]
        · rw [if_neg hlt, if_neg (by omega)]
  · funext b
    unfold BucketList.freed Table.cleared
    dsimp only
    by_cases hb : b = n
    · subst hb
      rw [if_pos rfl, if_neg (by omega), if_pos (by omega)]
    · rw [if_neg hb]
      by_cases hlt : b < n
      · rw [if_pos hlt, if_pos (by omega)]
      · rw [if_neg hlt, if_neg (by omega)]
  · rfl

variable [Fintype A]

theorem clearBuckets (h : Refines t σ) (n : Nat) : clearBuckets t n = .ok (t.cleared n) := by
  induction n with
  | zero => rw [Table.cleared_zero, Opennop.clearBuckets]
  | succ n ih =>
    have hlist := h.bucketList_cleared (Nat.le_refl n)
    rw [Opennop.clearBuckets, ih, ok_bind, ← h.freed_cleared n]
    cases hnext : ((t.cleared n).bucket n).next with
    | none =>
      have hempty : σ.inBucket n = [] := by
        rw [← List.head?_eq_none_iff, ← hlist.links.head_eq, hnext]
      have hprev : ((t.cleared n).bucket n).prev = none := by
        rw [hlist.links.tail_eq, hempty, List.getLast?_nil]
      refine congrArg Except.ok ?_
      ext1
      · funext x
        simp [BucketList.freed, hempty]
      · funext b
        unfold BucketList.freed
        dsimp only
        split
        · next hb =>
          rw [hb]
          exact SessionHead.ext hnext hprev rfl
        · rfl
      · rfl
    | some a =>
      refine hlist.freemem fun hempty => ?_
      rw [hlist.links.head_eq, hempty] at hnext
      cases hnext

end Refines

section Clear

variable {A : Type} [DecidableEq A]

/-- A bucket that counts sessions but has none takes no new one. -/
theorem insertsession_segv {t : Table A} {k : Key} (hprev : (t.bucket (hashOf k)).prev = none)
    (hqlen : (t.bucket (hashOf k)).qlen ≠ 0) (workers : Nat) (a : A) :
    insertsession workers t (some a) k = .error .segv := by
  have hself : ∀ (f : A → Option (Node A)) (n : Node A), Function.update f a (some n) a = some n :=
    fun f n => Function.update_self a (some n) f
  unfold insertsession
  dsimp only [Table.store, Table.incrementWorkerSessions]
  rw [if_neg hqlen, hprev]
  simp only [Table.setPrev, Table.load, hself, ok_bind, pure_eq_ok, error_bind]

/-- **The table is freed without a fault.** From every table in order, `clear_sessiontable` frees
each session once and leaves no block and no link behind. The counters of the buckets and of the
workers stay as they were, so that a session cannot be inserted in a bucket that was in use. -/
theorem clearSessiontable_freed [Fintype A] {t : Table A} {σ : Store A} (h : Refines t σ)
    (hport : ∀ e ∈ σ, e.2.key.smallerIPPort < 65536) :
    ∃ t', clearSessiontable t = .ok t' ∧ (∀ a, t'.heap a = none) ∧
      (∀ b, t'.bucket b = { next := none, prev := none, qlen := (σ.inBucket b).length }) ∧
      t'.sessions = t.sessions ∧
      ∀ workers a k, σ.inBucket (hashOf k) ≠ [] →
        insertsession workers t' (some a) k = .error .segv := by
  have hbucket : ∀ b, (t.cleared sessionBuckets).bucket b =
      { next := none, prev := none, qlen := (σ.inBucket b).length } := by
    intro b
    rw [← h.qlen b]
    change (if b < sessionBuckets then _ else t.bucket b) = _
    by_cases hb : b < sessionBuckets
    · rw [if_pos hb]
    · -- no connection hashes to a bucket that the table does not have
      have hempty : σ.inBucket b = [] := by
        refine List.eq_nil_iff_forall_not_mem.2 fun a ha => ?_
        obtain ⟨s, hs, rfl⟩ := Refines.mem_inBucket.1 ha
        exact hb (hashOf_lt (hport _ hs))
      have hlinks := h.links b
      rw [hempty] at hlinks
      rw [if_neg hb]
      exact SessionHead.ext hlinks.head_eq hlinks.tail_eq rfl
  refine ⟨t.cleared sessionBuckets, h.clearBuckets sessionBuckets, fun a => ?_, hbucket, rfl, ?_⟩
  · change (t.heap a).bind _ = none
    cases ha : t.heap a with
    | none => rfl
    | some n =>
      rw [Option.bind_some, h.head a n ha, if_pos (hashOf_lt (hport _ (h.mem_of_heap ha)))]
  · intro workers a k hk
    refine insertsession_segv ?_ ?_ workers a
    · rw [hbucket]
    · rw [hbucket]
      exact fun h0 => hk (List.length_eq_zero_iff.1 h0)

/-- A table with one session. -/
theorem clearSessiontable_freed_one : ∃ t t' : Table (Fin 2),
    insertsession 1 (initializeSessiontable (Fin 2)) (some 0) ⟨10, 1, 9, 1⟩ = .ok (t, some 0) ∧
      clearSessiontable t = .ok t' ∧ t'.heap 0 = none ∧
      insertsession 1 t' (some 0) ⟨10, 1, 9, 1⟩ = .error .segv := by
  have hcard : Fintype.card (Fin 2) < 4294967296 := by decide
  have h₀ : Refines (initializeSessiontable (Fin 2)) [] := .init
  have h := h₀.inserted hcard (a := 0) rfl ⟨10, 1, 9, 1⟩ 0
  obtain ⟨t', ht', hheap, -, -, hinsert⟩ := clearSessiontable_freed h (by
    intro e he
    rw [List.mem_singleton.1 he]
    decide)
  exact ⟨_, t', h₀.insertsession_eq rfl 1 _, ht', hheap 0, hinsert 1 0 _ (by decide)⟩

end Clear

end Opennop
