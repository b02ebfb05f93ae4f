import Opennop.Lib.Walk
import Opennop.Session.Bucket
import Opennop.Session.Store

/-!
# The operations of the session table refine those of the keyed list

One theorem for each function: on a table that represents a list of sessions it returns, and the new
table represents the list after the corresponding operation. The pointer work of insertion and
removal is first brought into one closed form each (`Table.inserted` here, `Table.removed` with the
buckets), which covers all cases of the source; the links are then those of `DList.append` and
`DList.remove`.
-/

namespace Opennop

/-! ## Closed forms of the pointer work -/

namespace Table

variable {A : Type} [DecidableEq A]

/-- The table after a session has entered at `a`. -/
def inserted (t : Table A) (a : A) (k : Key) (queuenum : Nat) : Table A where
  heap x :=
    if x = a then
      some
        { head := hashOf k, prev := (t.bucket (hashOf k)).prev, session := newSession k queuenum }
    else (t.heap x).map fun n =>
      if some x = (t.bucket (hashOf k)).prev then { n with next := some a } else n
  bucket b :=
    if b = hashOf k then
      { next := if (t.bucket b).qlen = 0 then some a else (t.bucket b).next
        prev := some a
        qlen := ((t.bucket b).qlen + 1) % 4294967296 }
    else t.bucket b
  sessions i := if i = queuenum then (t.sessions i + 1) % 4294967296 else t.sessions i

theorem inserted_next {t : Table A} {a x : A} {k : Key} {q : Nat} (hx : x ≠ a)
    (hn : ∃ n, t.heap x = some n) : (t.inserted a k q).next x =
      if some x = (t.bucket (hashOf k)).prev then some a else t.next x := by
  obtain ⟨n, hn⟩ := hn
  unfold next inserted
  simp only [if_neg hx, hn, Option.map_some, Option.bind_some]
  split <;> rfl

theorem inserted_prev {t : Table A} {a x : A} {k : Key} {q : Nat} (hx : x ≠ a) :
    (t.inserted a k q).prev x = t.prev x := by
  unfold prev inserted
  simp only [if_neg hx]
  cases t.heap x with
  | none => rfl
  | some n =>
    rw [Option.map_some, Option.bind_some]
    split <;> rfl

end Table

namespace Refines

variable {A : Type} {t : Table A} {σ : Store A}

/-! ### Lookup -/

theorem getsessionPass_eq {a : A} {n : Node A} (hn : t.heap a = some n) (k : Key) :
    getsessionPass t k a =
      .ok (searchStep t.next (fun x => (t.heap x).map (·.session.key) = some k) a) := by
  have hnext : t.next a = n.next := by simp [Table.next, hn]
  unfold getsessionPass searchStep
  rw [Table.load, hn, ok_bind, hnext]
  by_cases hk : n.session.key = k
  · simp [hn, hk]
  · cases n.next <;> simp [hn, hk]

theorem lookup_eq (h : Refines t σ) (k : Key) : σ.lookup k =
    (σ.inBucket (hashOf k)).find? fun x => (t.heap x).map (·.session.key) = some k := by
  unfold Store.lookup Store.inBucket
  rw [List.find?_map, List.find?_filter]
  congr 1
  rw [← List.head?_filter, ← List.head?_filter]
  congr 1
  refine List.filter_congr ?_
  rintro ⟨a, s⟩ hm
  obtain ⟨n, hn, rfl⟩ := h.heap_of_mem hm
  by_cases hk : n.session.key = k <;> simp [hn, hk]

/-- **`getsession` is the lookup of the list.** -/
theorem getsession [Fintype A] (h : Refines t σ) (k : Key) :
    Opennop.getsession t k = .ok (σ.lookup k) := by
  have hl := h.links (hashOf k)
  have hlen := length_inBucket_le σ (hashOf k)
  have hcard := h.length_le
  rw [h.lookup_eq]
  unfold Opennop.getsession
  rw [hl.head_eq]
  have hseg := hl.forward
  rw [hl.head_eq] at hseg
  have hheap : ∀ x ∈ σ.inBucket (hashOf k), ∃ n, t.heap x = some n := fun x hx =>
    (h.heap_of_mem_bucket hx).imp fun _ hn => hn.1
  generalize σ.inBucket (hashOf k) = l at hseg hheap hlen
  cases l with
  | nil => rfl
  | cons a l =>
    rw [List.length_cons] at hlen
    refine loop_search hseg (fun x hx => ?_) (by omega)
    obtain ⟨n, hn⟩ := hheap x hx
    exact getsessionPass_eq hn k

/-! ### Insertion -/

section Insert

theorem last_of_bucket (h : Refines t σ) {b : Nat} {last : A} (hl : (t.bucket b).prev = some last) :
    last ∈ σ.inBucket b := by
  rw [(h.links b).tail_eq] at hl
  exact List.mem_of_getLast? hl

theorem inBucket_insert (σ : Store A) (a : A) (s : Session) (b : Nat) :
    (σ.insert a s).inBucket b = σ.inBucket b ++ if hashOf s.key = b then [a] else [] := by
  unfold Store.inBucket Store.insert
  rw [List.filter_append, List.map_append]
  by_cases hb : hashOf s.key = b <;> simp [hb]

theorem not_mem_of_free (h : Refines t σ) {a : A} (ha : t.heap a = none) (s : Session) :
    (a, s) ∉ σ := by
  intro hm
  obtain ⟨n, hn, -⟩ := h.heap_of_mem hm
  rw [ha] at hn
  cases hn

theorem ne_last (h : Refines t σ) {b b' : Nat} (hb : b ≠ b') {x : A} (hx : x ∈ σ.inBucket b) :
    some x ≠ (t.bucket b').prev := by
  intro hl
  obtain ⟨n, hn, rfl⟩ := h.heap_of_mem_bucket hx
  exact hb ((h.mem_bucket_iff hn).1 (h.last_of_bucket hl.symm))

variable [DecidableEq A]

/-- The pointer work does not depend on the counters of the workers. -/
theorem insertsession_eq_of_counters {c : Nat → Nat} (h : Refines { t with sessions := c } σ)
    {a : A} (ha : t.heap a = none) (workers : Nat) (k : Key) :
    insertsession workers t (some a) k =
      .ok (t.inserted a k (pickQueue workers t.sessions), some a) := by
  have hlinks : DList t.next t.prev (t.bucket (hashOf k)).next (t.bucket (hashOf k)).prev
      (σ.inBucket (hashOf k)) := h.links (hashOf k)
  have hqlen : (t.bucket (hashOf k)).qlen = (σ.inBucket (hashOf k)).length := h.qlen (hashOf k)
  generalize hq : pickQueue workers t.sessions = q
  unfold insertsession
  simp only [hq, Table.incrementWorkerSessions, Table.store, Table.setBucket, Table.setPrev,
    Table.setNext, Table.load]
  by_cases h0 : (t.bucket (hashOf k)).qlen = 0
  · have hnil : σ.inBucket (hashOf k) = [] := List.length_eq_zero_iff.1 (by rw [← hqlen]; exact h0)
    have hprev : (t.bucket (hashOf k)).prev = none := by
      rw [hlinks.tail_eq, hnil]
      rfl
    simp only [h0, if_true, pure_eq_ok, ok_bind]
    congr 2
    ext1
    · funext x
      by_cases hx : x = a <;> simp [Table.inserted, hx, hprev]
    · funext b
      by_cases hb : b = hashOf k <;> simp [Table.inserted, hb, h0]
    · funext i
      by_cases hi : i = q <;> simp [Table.inserted, hi]
  · cases hl : (t.bucket (hashOf k)).prev with
    | none =>
      rw [hlinks.tail_eq, List.getLast?_eq_none_iff] at hl
      rw [hl] at hqlen
      exact absurd hqlen h0
    | some last =>
    obtain ⟨n, (hn : t.heap last = some n), -⟩ := h.heap_of_mem_bucket (h.last_of_bucket hl)
    have hne : last ≠ a := by
      rintro rfl
      rw [ha] at hn
      cases hn
    simp only [h0, if_true, if_false, pure_eq_ok, ok_bind, Function.update_self,
      Function.update_of_ne hne, hn]
    congr 2
    ext1
    · funext x
      by_cases hx : x = a
      · subst hx
        simp [Table.inserted, hne.symm, hl]
      · by_cases hx' : x = last
        · subst hx'
          simp [Table.inserted, hx, hl, hn]
        · simp [Table.inserted, hx, hx', hl]
    · funext b
      by_cases hb : b = hashOf k
      · subst hb
        simp [Table.inserted, h0]
      · simp [Table.inserted, hb]
    · funext i
      by_cases hi : i = q <;> simp [Table.inserted, hi]

theorem insertsession_eq (h : Refines t σ) {a : A} (ha : t.heap a = none) (workers : Nat)
    (k : Key) :
    insertsession workers t (some a) k =
      .ok (t.inserted a k (pickQueue workers t.sessions), some a) :=
  insertsession_eq_of_counters (c := t.sessions) h ha workers k

section Inserted

variable (h : Refines t σ) {a : A} (ha : t.heap a = none) (k : Key) (q : Nat)
include h ha

theorem inserted_heap (x : A) (s : Session) : (x, s) ∈ σ.insert a (newSession k q) ↔
    ∃ n, (t.inserted a k q).heap x = some n ∧ n.session = s := by
  unfold Store.insert
  by_cases hx : x = a
  · subst hx
    simp [Table.inserted, h.not_mem_of_free ha, eq_comm]
  · rw [List.mem_append, h.heap]
    simp only [List.mem_singleton, Prod.mk.injEq, hx, false_and, or_false, Table.inserted, if_false]
    constructor
    · rintro ⟨n, hn, rfl⟩
      rw [hn]
      refine ⟨_, rfl, ?_⟩
      split <;> rfl
    · rintro ⟨m, hm, rfl⟩
      obtain ⟨n, hn, rfl⟩ := Option.map_eq_some_iff.1 hm
      refine ⟨n, hn, ?_⟩
      split <;> rfl

omit ha in
theorem inserted_head (x : A) (m : Node A) (hm : (t.inserted a k q).heap x = some m) :
    m.head = hashOf m.session.key := by
  simp only [Table.inserted] at hm
  by_cases hx : x = a
  · rw [if_pos hx, Option.some.injEq] at hm
    subst hm
    rfl
  · rw [if_neg hx] at hm
    obtain ⟨n, hn, rfl⟩ := Option.map_eq_some_iff.1 hm
    have := h.head x n hn
    split <;> exact this

/-- The new session is the last one of its bucket; the other buckets stay as they are. -/
theorem inserted_links (b : Nat) : DList (t.inserted a k q).next (t.inserted a k q).prev
    ((t.inserted a k q).bucket b).next ((t.inserted a k q).bucket b).prev
    (σ.inBucket b ++ if hashOf k = b then [a] else []) := by
  have hl := h.links b
  have hheap : ∀ x ∈ σ.inBucket b, ∃ n, t.heap x = some n := fun x hx =>
    (h.heap_of_mem_bucket hx).imp fun _ hn => hn.1
  have hna : a ∉ σ.inBucket b := by
    intro hm
    obtain ⟨n, hn⟩ := hheap a hm
    rw [ha] at hn
    cases hn
  have hne : ∀ x ∈ σ.inBucket b, x ≠ a := fun x hx hxa => hna (hxa ▸ hx)
  by_cases hb : hashOf k = b
  · subst hb
    have hempty : ((t.bucket (hashOf k)).qlen = 0) = (σ.inBucket (hashOf k) = []) := by
      rw [h.qlen, List.length_eq_zero_iff]
    rw [if_pos rfl]
    simp only [Table.inserted, if_true, hempty]
    refine hl.append hna (fun x hx => ?_) ?_ (fun x hx => ?_) ?_
    · exact Table.inserted_next (hne x hx) (hheap x hx)
    · simp [Table.next]
    · exact Table.inserted_prev (hne x hx)
    · simp [Table.prev]
  · rw [if_neg hb, List.append_nil]
    simp only [Table.inserted, if_neg (Ne.symm hb)]
    refine hl.congr (fun x hx => ?_) fun x hx => Table.inserted_prev (hne x hx)
    refine (Table.inserted_next (hne x hx) (hheap x hx)).trans ?_
    rw [if_neg (h.ne_last (Ne.symm hb) hx)]

omit [DecidableEq A] in
theorem nodup_cons_of_free : (a :: σ.map Prod.fst).Nodup := by
  refine List.nodup_cons.2 ⟨fun hm => ?_, h.nodup⟩
  obtain ⟨⟨a', s⟩, hm', rfl⟩ := List.mem_map.1 hm
  exact h.not_mem_of_free ha s hm'

omit [DecidableEq A] in
theorem length_lt_card [Fintype A] : σ.length < Fintype.card A := by
  have hlen := (h.nodup_cons_of_free ha).length_le_card
  rwa [List.length_cons, List.length_map] at hlen

end Inserted

theorem inserted [Fintype A] (hcard : Fintype.card A < 4294967296) (h : Refines t σ) {a : A}
    (ha : t.heap a = none) (k : Key) (q : Nat) :
    Refines (t.inserted a k q) (σ.insert a (newSession k q)) where
  nodup := by
    unfold Store.insert
    rw [List.map_append, List.nodup_append_comm]
    exact h.nodup_cons_of_free ha
  heap := h.inserted_heap ha k q
  head := h.inserted_head k q
  links b := by
    rw [inBucket_insert]
    exact h.inserted_links ha k q b
  qlen b := by
    have hlen := h.length_lt_card ha
    have hle := length_inBucket_le σ b
    have hq := h.qlen b
    have hkey : (newSession k q).key = k := rfl
    rw [inBucket_insert, hkey]
    by_cases hb : b = hashOf k
    · subst hb
      simp only [Table.inserted, if_true, List.length_append, List.length_singleton]
      omega
    · simp only [Table.inserted, if_neg hb, if_neg (Ne.symm hb), List.append_nil]
      exact hq
  sessions i := by
    have hlen := h.length_lt_card ha
    have hs := h.sessions i
    have hle := List.countP_le_length (p := fun e : A × Session => decide (e.2.queue = i)) (l := σ)
    unfold Store.insert
    rw [List.countP_append]
    by_cases hi : i = q
    · subst hi
      simp only [Table.inserted, if_true, newSession, List.countP_singleton, decide_true]
      omega
    · simp only [Table.inserted, if_neg hi, newSession, List.countP_singleton, hs]
      simp [Ne.symm hi]

end Insert

/-! ### Removal -/

section Remove

theorem bucketList (h : Refines t σ) (b : Nat) : BucketList t b (σ.inBucket b) :=
  ⟨h.links b, fun _ ha => h.heap_of_mem_bucket ha⟩

theorem split (h : Refines t σ) {a : A} {n : Node A} (hn : t.heap a = some n) :
    ∃ l₁ l₂, σ.inBucket n.head = l₁ ++ a :: l₂ ∧ BucketList t n.head (l₁ ++ a :: l₂) := by
  obtain ⟨l₁, l₂, hl⟩ := List.append_of_mem ((h.mem_bucket_iff hn).2 rfl)
  exact ⟨l₁, l₂, hl, hl ▸ h.bucketList n.head⟩

theorem neighbour (h : Refines t σ) {a : A} {n : Node A} (hn : t.heap a = some n) {x : A}
    (hx : n.next = some x ∨ n.prev = some x) : x ≠ a ∧ ∃ m, t.heap x = some m ∧
    m.head = n.head := by
  obtain ⟨l₁, l₂, -, hlist⟩ := h.split hn
  exact hlist.neighbour hn hx

variable [DecidableEq A]

theorem clearsession_eq (h : Refines t σ) {a : A} {n : Node A} (hn : t.heap a = some n) :
    clearsession t a = .ok (t.removed a n) := by
  obtain ⟨l₁, l₂, -, hlist⟩ := h.split hn
  exact hlist.clearsession_eq hn

theorem inBucket_clear (σ : Store A) (a : A) (b : Nat) :
    (σ.clear a).inBucket b = (σ.inBucket b).filter (· ≠ a) := by
  unfold Store.inBucket Store.clear
  rw [List.filter_map, List.filter_filter, List.filter_filter]
  congr 1
  refine List.filter_congr fun e _ => ?_
  simp [Bool.and_comm]

theorem countP_clear (h : Refines t σ) {a : A} {s : Session} (ha : (a, s) ∈ σ) (i : Nat) :
    (σ.countP fun e => e.2.queue = i) =
      ((σ.clear a).countP fun e => e.2.queue = i) + if s.queue = i then 1 else 0 := by
  obtain ⟨l₁, l₂, hl⟩ := List.append_of_mem ha
  have hnodup := h.nodup
  rw [hl, List.map_append, List.map_cons, List.nodup_middle, List.nodup_cons] at hnodup
  have hne : ∀ e ∈ l₁ ++ l₂, e.1 ≠ a := by
    intro e he hea
    exact hnodup.1 (by rw [← List.map_append]; exact List.mem_map.2 ⟨e, he, hea⟩)
  have hclear : σ.clear a = l₁ ++ l₂ := by
    unfold Store.clear
    rw [hl, List.filter_append, List.filter_cons_of_neg (by simp),
      List.filter_eq_self.2 fun e he => by simpa using hne e (List.mem_append_left _ he),
      List.filter_eq_self.2 fun e he => by simpa using hne e (List.mem_append_right _ he)]
  rw [hclear, hl, List.countP_append, List.countP_append, List.countP_cons]
  simp only [decide_eq_true_eq]
  omega

section Removed

variable (h : Refines t σ) {a : A} {n : Node A} (hn : t.heap a = some n)
include h

omit [DecidableEq A] in
theorem apart_of_bucket_ne (hn : t.heap a = some n) {b : Nat} (hb : b ≠ n.head) {x : A}
    (hx : x ∈ σ.inBucket b) :
    x ≠ a ∧ (∃ m, t.heap x = some m) ∧ some x ≠ n.prev ∧ some x ≠ n.next := by
  obtain ⟨m, hm, hmb⟩ := h.heap_of_mem_bucket hx
  have hother : ¬ ∃ m', t.heap x = some m' ∧ m'.head = n.head := by
    rintro ⟨m', hm', hmb'⟩
    rw [hm, Option.some.injEq] at hm'
    exact hb (by rw [← hmb, hm', hmb'])
  refine ⟨?_, ⟨m, hm⟩, fun hp => ?_, fun hp => ?_⟩
  · rintro rfl
    exact hother ⟨n, hn, rfl⟩
  · exact hother (h.neighbour hn (.inr hp.symm)).2
  · exact hother (h.neighbour hn (.inl hp.symm)).2

include hn

theorem inBucket_clear_of_ne {b : Nat} (hb : b ≠ n.head) :
    (σ.clear a).inBucket b = σ.inBucket b := by
  rw [inBucket_clear]
  exact List.filter_eq_self.2 fun x hx => by simpa using (h.apart_of_bucket_ne hn hb hx).1

omit hn in
theorem removed_heap (x : A) (s : Session) : (x, s) ∈ σ.clear a ↔
    ∃ m, (t.removed a n).heap x = some m ∧ m.session = s := by
  unfold Store.clear
  rw [List.mem_filter, h.heap]
  by_cases hx : x = a
  · simp [Table.removed, hx]
  · simp only [Table.removed, hx, if_false, ne_eq, not_false_eq_true, decide_true, and_true,
      Option.map_eq_some_iff]
    constructor
    · rintro ⟨m, hm, rfl⟩
      exact ⟨_, ⟨m, hm, rfl⟩, rfl⟩
    · rintro ⟨m, ⟨m', hm', rfl⟩, rfl⟩
      exact ⟨m', hm', rfl⟩

omit hn in
theorem removed_head (x : A) (m : Node A) (hm : (t.removed a n).heap x = some m) :
    m.head = hashOf m.session.key := by
  simp only [Table.removed] at hm
  by_cases hx : x = a
  · rw [if_pos hx] at hm
    cases hm
  · rw [if_neg hx, Option.map_eq_some_iff] at hm
    obtain ⟨m', hm', rfl⟩ := hm
    exact h.head x m' hm'

theorem removed_links (b : Nat) : DList (t.removed a n).next (t.removed a n).prev
    ((t.removed a n).bucket b).next ((t.removed a n).bucket b).prev ((σ.clear a).inBucket b) := by
  by_cases hb : b = n.head
  · subst hb
    obtain ⟨l₁, l₂, hl, hlist⟩ := h.split hn
    rw [inBucket_clear, hl, filter_ne_middle hlist.links.nodup]
    exact (hlist.removed hn).links
  · rw [h.inBucket_clear_of_ne hn hb]
    simp only [Table.removed, if_neg hb]
    refine (h.links b).congr (fun x hx => ?_) fun x hx => ?_
    · obtain ⟨hxa, hm, hp, -⟩ := h.apart_of_bucket_ne hn hb hx
      refine (Table.removed_next hxa hm).trans ?_
      rw [if_neg hp]
    · obtain ⟨hxa, hm, -, hp⟩ := h.apart_of_bucket_ne hn hb hx
      refine (Table.removed_prev hxa hm).trans ?_
      rw [if_neg hp]

end Removed

theorem removed [Fintype A] (hcard : Fintype.card A < 4294967296) (h : Refines t σ) {a : A}
    {n : Node A} (hn : t.heap a = some n) : Refines (t.removed a n) (σ.clear a) where
  nodup := h.nodup.sublist (List.filter_sublist.map _)
  heap := h.removed_heap
  head := h.removed_head
  links := h.removed_links hn
  qlen b := by
    have hlen := h.length_le
    have hq := h.qlen b
    have hle := length_inBucket_le σ b
    by_cases hb : b = n.head
    · subst hb
      obtain ⟨l₁, l₂, hl, hlist⟩ := h.split hn
      rw [hl, List.length_append, List.length_cons] at hq hle
      rw [inBucket_clear, hl, filter_ne_middle hlist.links.nodup, List.length_append]
      simp only [Table.removed, if_true, hq]
      omega
    · rw [h.inBucket_clear_of_ne hn hb]
      simp only [Table.removed, if_neg hb]
      exact hq
  sessions i := by
    have hlen := h.length_le
    have hs := h.sessions i
    have hc := h.countP_clear (h.mem_of_heap hn) i
    have hle := List.countP_le_length (p := fun e : A × Session => decide (e.2.queue = i)) (l := σ)
    by_cases hi : i = n.session.queue
    · subst hi
      rw [if_pos rfl] at hc
      simp only [Table.removed, if_true, hs]
      omega
    · rw [if_neg (Ne.symm hi)] at hc
      simp only [Table.removed, if_neg hi, hs]
      omega

end Remove

/-! ### Changing a record -/

section Modify

variable [DecidableEq A]

theorem inBucket_modify (σ : Store A) (a : A) {f : Session → Session} (hf : ∀ s, (f s).key = s.key)
    (b : Nat) : (σ.modify a f).inBucket b = σ.inBucket b := by
  unfold Store.inBucket Store.modify
  rw [List.filter_map, List.map_map]
  have hpred : ((fun e : A × Session => decide (hashOf e.2.key = b)) ∘
      fun e : A × Session => if e.1 = a then (e.1, f e.2) else e) =
      fun e => decide (hashOf e.2.key = b) := by
    funext e
    by_cases he : e.1 = a <;> simp [he, hf]
  rw [hpred]
  refine List.map_congr_left fun e _ => ?_
  by_cases he : e.1 = a <;> simp [he]

theorem map_fst_modify (σ : Store A) (a : A) (f : Session → Session) :
    (σ.modify a f).map Prod.fst = σ.map Prod.fst := by
  unfold Store.modify
  rw [List.map_map]
  refine List.map_congr_left fun e _ => ?_
  by_cases he : e.1 = a <;> simp [he]

theorem modified_heap (h : Refines t σ) {a : A} {n : Node A} (hn : t.heap a = some n)
    (f : Session → Session) (x : A) (s : Session) : (x, s) ∈ σ.modify a f ↔
      ∃ m, (t.store a { n with session := f n.session }).heap x = some m ∧ m.session = s := by
  unfold Store.modify
  rw [List.mem_map]
  by_cases hx : x = a
  · subst hx
    simp only [Table.store, Function.update_self, Option.some.injEq, exists_eq_left']
    constructor
    · rintro ⟨⟨y, s'⟩, hm, he⟩
      by_cases hy : y = x
      · subst hy
        rw [if_pos rfl, Prod.mk.injEq] at he
        obtain ⟨m, hm', rfl⟩ := h.heap_of_mem hm
        rw [hn, Option.some.injEq] at hm'
        rw [hm']
        exact he.2
      · rw [if_neg hy, Prod.mk.injEq] at he
        exact absurd he.1 hy
    · rintro rfl
      exact ⟨(x, n.session), h.mem_of_heap hn, by simp⟩
  · simp only [Table.store, Function.update_of_ne hx]
    rw [← h.heap]
    constructor
    · rintro ⟨⟨y, s'⟩, hm, he⟩
      by_cases hy : y = a
      · rw [if_pos hy, Prod.mk.injEq] at he
        exact absurd (he.1 ▸ hy) hx
      · rw [if_neg hy] at he
        rwa [← he]
    · exact fun hm => ⟨(x, s), hm, by simp [hx]⟩

theorem modified (h : Refines t σ) {a : A} {n : Node A} (hn : t.heap a = some n)
    {f : Session → Session} (hkey : ∀ s, (f s).key = s.key) (hqueue : ∀ s, (f s).queue = s.queue) :
    Refines (t.store a { n with session := f n.session }) (σ.modify a f) where
  nodup := by
    rw [map_fst_modify]
    exact h.nodup
  heap := h.modified_heap hn f
  head x m hm := by
    by_cases hx : x = a
    · subst hx
      simp only [Table.store, Function.update_self, Option.some.injEq] at hm
      subst hm
      rw [hkey]
      exact h.head x n hn
    · simp only [Table.store, Function.update_of_ne hx] at hm
      exact h.head x m hm
  links b := by
    have hnext : (t.store a { n with session := f n.session }).next = t.next := by
      funext x
      by_cases hx : x = a <;> simp [Table.next, Table.store, hx, hn]
    have hprev : (t.store a { n with session := f n.session }).prev = t.prev := by
      funext x
      by_cases hx : x = a <;> simp [Table.prev, Table.store, hx, hn]
    rw [inBucket_modify σ a hkey, hnext, hprev]
    exact h.links b
  qlen b := by
    rw [inBucket_modify σ a hkey]
    exact h.qlen b
  sessions i := by
    refine (h.sessions i).trans ?_
    unfold Store.modify
    rw [List.countP_map]
    congr 1
    funext e
    by_cases he : e.1 = a <;> simp [he, hqueue]

end Modify

/-! ### The sweep -/

section Sweep

variable [DecidableEq A]

/-- What the sweep does with the session at `a`. -/
def sweepOne (σ : Store A) (a : A) : Store A :=
  σ.filterMap fun e =>
    if e.1 = a then if e.2.deadcounter > 2 then none else some (e.1, age e.2) else some e

theorem key_age (s : Session) : (age s).key = s.key := rfl

theorem queue_age (s : Session) : (age s).queue = s.queue := rfl

omit [DecidableEq A] in
theorem session_of_mem (h : Refines t σ) {a : A} {n : Node A} (hn : t.heap a = some n)
    {e : A × Session} (he : e ∈ σ) (hea : e.1 = a) : e.2 = n.session := by
  obtain ⟨m, hm, hms⟩ := h.heap_of_mem he
  rw [hea, hn, Option.some.injEq] at hm
  rw [← hms, hm]

theorem sweepOne_dead (h : Refines t σ) {a : A} {n : Node A} (hn : t.heap a = some n)
    (hd : n.session.deadcounter > 2) : sweepOne σ a = σ.clear a := by
  unfold sweepOne Store.clear
  rw [← List.filterMap_eq_filter]
  refine List.filterMap_congr fun e he => ?_
  by_cases hea : e.1 = a
  · simp [hea, h.session_of_mem hn he hea, hd, Option.guard]
  · simp [hea, Option.guard]

theorem sweepOne_alive (h : Refines t σ) {a : A} {n : Node A} (hn : t.heap a = some n)
    (hd : ¬ n.session.deadcounter > 2) : sweepOne σ a = σ.modify a age := by
  unfold sweepOne Store.modify
  rw [← List.filterMap_eq_map]
  refine List.filterMap_congr fun e he => ?_
  by_cases hea : e.1 = a
  · simp [hea, h.session_of_mem hn he hea, hd]
  · simp [hea]

/-- Sweeping address by address is sweeping at once. -/
theorem foldl_sweepOne {l : List A} (hl : l.Nodup) (σ : Store A) :
    l.foldl sweepOne σ = σ.filterMap fun e =>
      if e.1 ∈ l then if e.2.deadcounter > 2 then none else some (e.1, age e.2) else some e := by
  induction l generalizing σ with
  | nil => simp
  | cons a l ih =>
    obtain ⟨ha, hl⟩ := List.nodup_cons.1 hl
    rw [List.foldl_cons, ih hl, sweepOne, List.filterMap_filterMap]
    refine List.filterMap_congr fun e _ => ?_
    by_cases hea : e.1 = a
    · subst hea
      by_cases hd : e.2.deadcounter > 2
      · simp [hd]
      · simp [hd, ha]
    · simp [hea]

theorem sweep_eq (h : Refines t σ) (b : Nat) : (σ.inBucket b).foldl sweepOne σ = σ.sweep b := by
  rw [foldl_sweepOne (h.links b).nodup]
  unfold Store.sweep
  refine List.filterMap_congr fun e he => ?_
  obtain ⟨n, hn, hns⟩ := h.heap_of_mem he
  have hiff : e.1 ∈ σ.inBucket b ↔ hashOf e.2.key = b := by
    rw [h.mem_bucket_iff hn, h.head e.1 n hn, hns]
  simp only [hiff]

variable [Fintype A]

/-- **One pass of the sweep**: the session is dropped or aged, and the walk goes on with the one
that followed it. -/
theorem cleanuplistPass_eq (hcard : Fintype.card A < 4294967296) (h : Refines t σ) {b : Nat}
    {l₁ l₂ : List A} {a : A} (hl : σ.inBucket b = l₁ ++ a :: l₂) :
    ∃ t' l₁', Refines t' (sweepOne σ a) ∧ (sweepOne σ a).inBucket b = l₁' ++ l₂ ∧
      cleanuplistPass (t, a) = .ok (BucketList.goesOn t' l₂) := by
  have hlist := hl ▸ h.bucketList b
  obtain ⟨n, hn, -⟩ := hlist.at_middle
  have hpass := hlist.cleanuplistPass_eq hn
  unfold BucketList.swept at hpass
  by_cases hd : n.session.deadcounter > 2
  · rw [if_pos hd] at hpass
    refine ⟨t.removed a n, l₁, ?_, ?_, hpass⟩
    · rw [h.sweepOne_dead hn hd]
      exact h.removed hcard hn
    · rw [h.sweepOne_dead hn hd, inBucket_clear, hl]
      exact filter_ne_middle hlist.links.nodup
  · rw [if_neg hd] at hpass
    refine ⟨t.store a { n with session := age n.session }, l₁ ++ [a], ?_, ?_, hpass⟩
    · rw [h.sweepOne_alive hn hd]
      exact h.modified hn key_age queue_age
    · rw [h.sweepOne_alive hn hd, inBucket_modify σ a key_age, hl, List.append_assoc,
        List.singleton_append]

theorem cleanuplist_loop (hcard : Fintype.card A < 4294967296) {b : Nat} {l₂ : List A} :
    ∀ {t : Table A} {σ : Store A} {l₁ : List A} {a : A} {fuel : Nat}, Refines t σ →
      σ.inBucket b = l₁ ++ a :: l₂ → l₂.length < fuel →
      ∃ t', loop cleanuplistPass fuel (t, a) = .ok t' ∧
        Refines t' ((a :: l₂).foldl sweepOne σ) := by
  induction l₂ with
  | nil =>
    intro t σ l₁ a fuel h hl hfuel
    obtain ⟨t', -, h', -, hpass⟩ := h.cleanuplistPass_eq hcard hl
    obtain ⟨fuel, rfl⟩ := Nat.exists_eq_add_of_lt hfuel
    exact ⟨t', loop_done hpass, h'⟩
  | cons x l₂ ih =>
    intro t σ l₁ a fuel h hl hfuel
    obtain ⟨t', l₁', h', hl', hpass⟩ := h.cleanuplistPass_eq hcard hl
    obtain ⟨fuel, rfl⟩ : ∃ m, fuel = m + 1 := ⟨fuel - 1, by omega⟩
    rw [List.length_cons] at hfuel
    obtain ⟨t'', hloop, h''⟩ := ih h' hl' (Nat.lt_of_succ_lt_succ hfuel)
    exact ⟨t'', by rw [loop_again hpass, hloop], h''⟩

/-- **The sweep of a bucket** drops its dead sessions and ages the others. -/
theorem cleanuplist (hcard : Fintype.card A < 4294967296) (h : Refines t σ) (b : Nat) :
    ∃ t', Opennop.cleanuplist t b = .ok t' ∧ Refines t' (σ.sweep b) := by
  have hlen := length_inBucket_le σ b
  have hle := h.length_le
  have hhead := (h.links b).head_eq
  rw [← h.sweep_eq]
  unfold Opennop.cleanuplist
  cases hl : σ.inBucket b with
  | nil =>
    rw [hl] at hhead
    rw [hhead]
    exact ⟨t, rfl, h⟩
  | cons a l =>
    rw [hl] at hhead hlen
    rw [List.length_cons] at hlen
    rw [hhead]
    have hl' : σ.inBucket b = [] ++ a :: l := hl
    exact cleanuplist_loop hcard h hl' (by omega)

end Sweep

end Refines

end Opennop
