import Opennop.Lib.Chain
import Opennop.Session.Table

/-!
# The session table as a keyed list

What the table is for: a list of sessions in the order of their insertion, each at its address. A
session is looked up by key, removed by address, and the sweep of a bucket drops or ages the
sessions whose key hashes there. `Refines` relates a table to such a list and says what must hold of
the buckets, the links, the counters and the heap.
-/

namespace Opennop

abbrev Store (A : Type) := List (A × Session)

namespace Store

variable {A : Type}

/-- The addresses of the sessions whose key hashes to `b`. -/
def inBucket (σ : Store A) (b : Nat) : List A :=
  (σ.filter fun e => hashOf e.2.key = b).map Prod.fst

def lookup (σ : Store A) (k : Key) : Option A := (σ.find? fun e => e.2.key = k).map Prod.fst

def insert (σ : Store A) (a : A) (s : Session) : Store A := σ ++ [(a, s)]

section Decidable

variable [DecidableEq A]

/-- The session at `a` goes. -/
def clear (σ : Store A) (a : A) : Store A := σ.filter fun e => e.1 ≠ a

/-- The record of the session at `a` changes. -/
def modify (σ : Store A) (a : A) (f : Session → Session) : Store A :=
  σ.map fun e => if e.1 = a then (e.1, f e.2) else e

end Decidable

/-- The dead sessions of bucket `b` go, the others of it age. -/
def sweep (σ : Store A) (b : Nat) : Store A :=
  σ.filterMap fun e =>
    if hashOf e.2.key = b then
      if e.2.deadcounter > 2 then none else some (e.1, age e.2)
    else some e

end Store

/-- **The table represents the keyed list.** -/
structure Refines {A : Type} (t : Table A) (σ : Store A) : Prop where
  /-- No two sessions are at one address. -/
  nodup : (σ.map Prod.fst).Nodup
  /-- The heap holds exactly these sessions. -/
  heap : ∀ a s, (a, s) ∈ σ ↔ ∃ n, t.heap a = some n ∧ n.session = s
  /-- Every session knows its bucket, the one its key hashes to. -/
  head : ∀ a n, t.heap a = some n → n.head = hashOf n.session.key
  /-- The two chains of a bucket visit its sessions in opposite orders. -/
  links : ∀ b, DList t.next t.prev (t.bucket b).next (t.bucket b).prev (σ.inBucket b)
  qlen : ∀ b, (t.bucket b).qlen = (σ.inBucket b).length
  sessions : ∀ i, t.sessions i = σ.countP fun e => e.2.queue = i

namespace Refines

variable {A : Type} {t : Table A} {σ : Store A}

theorem init : Refines (initializeSessiontable A) [] where
  nodup := List.nodup_nil
  heap := by simp [initializeSessiontable]
  head := by simp [initializeSessiontable]
  links _ := DList.nil _ _
  qlen _ := rfl
  sessions _ := rfl

/-! ### Members -/

theorem mem_of_heap (h : Refines t σ) {a : A} {n : Node A} (hn : t.heap a = some n) :
    (a, n.session) ∈ σ := (h.heap a n.session).2 ⟨n, hn, rfl⟩

theorem heap_of_mem (h : Refines t σ) {a : A} {s : Session} (hm : (a, s) ∈ σ) :
    ∃ n, t.heap a = some n ∧ n.session = s := (h.heap a s).1 hm

theorem mem_inBucket {b : Nat} {a : A} : a ∈ σ.inBucket b ↔ ∃ s, (a, s) ∈ σ ∧ hashOf s.key = b := by
  simp [Store.inBucket]

theorem mem_bucket_iff (h : Refines t σ) {a : A} {n : Node A} (hn : t.heap a = some n) {b : Nat} :
    a ∈ σ.inBucket b ↔ n.head = b := by
  rw [mem_inBucket, h.head a n hn]
  constructor
  · rintro ⟨s, hs, hb⟩
    obtain ⟨n', hn', rfl⟩ := h.heap_of_mem hs
    rw [hn, Option.some.injEq] at hn'
    rwa [hn']
  · exact fun hb => ⟨n.session, h.mem_of_heap hn, hb⟩

theorem heap_of_mem_bucket (h : Refines t σ) {a : A} {b : Nat} (ha : a ∈ σ.inBucket b) :
    ∃ n, t.heap a = some n ∧ n.head = b := by
  obtain ⟨s, hs, -⟩ := mem_inBucket.1 ha
  obtain ⟨n, hn, -⟩ := h.heap_of_mem hs
  exact ⟨n, hn, (h.mem_bucket_iff hn).1 ha⟩

theorem length_le [Fintype A] (h : Refines t σ) : σ.length ≤ Fintype.card A := by
  have := h.nodup.length_le_card
  rwa [List.length_map] at this

theorem length_inBucket_le (σ : Store A) (b : Nat) : (σ.inBucket b).length ≤ σ.length := by
  unfold Store.inBucket
  rw [List.length_map]
  exact List.length_filter_le _ _

end Refines

end Opennop
