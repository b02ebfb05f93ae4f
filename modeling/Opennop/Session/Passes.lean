import Opennop.Lib.Trace
import Opennop.Session.Idle

/-!
# The cleanup thread (`opennopd/subsystems/sessioncleanup.c`)

Every thirty seconds `cleanup_function` sweeps all buckets. On the keyed list this is one step for
all sessions, the dead ones go and the others age. A session of which nothing is heard is found idle
by every pass but the first, so it does not survive the fifth.
-/

namespace Opennop

/-- `SESSIONBUCKETS` -/
def sessionBuckets : Nat := 65536

theorem hashOf_lt {k : Key} (h : k.smallerIPPort < 65536) : hashOf k < sessionBuckets := by
  unfold hashOf sessionhash sessionBuckets
  dsimp only
  have hlt : ∀ {a b : Nat}, a < 2 ^ 16 → b < 2 ^ 16 → a ^^^ b < 2 ^ 16 := Nat.xor_lt_two_pow
  exact hlt (hlt (Nat.mod_lt _ (by decide)) (Nat.mod_lt _ (by decide)))
    (hlt (Nat.mod_lt _ (by decide)) h)

section Cleanup

variable {A : Type} [DecidableEq A] [Fintype A]

/-- The loop over the buckets, below `n`. -/
def cleanupBuckets (t : Table A) : Nat → Exec (Table A)
  | 0 => .ok t
  | n + 1 => do
    let t ← cleanupBuckets t n
    match (t.bucket n).next with
    | some _ => cleanuplist t n
    | none => return t

/-- One pass of the loop of `cleanup_function` -/
def cleanupPass (deadSessionDetection : Bool) (t : Table A) : Exec (Table A) :=
  if deadSessionDetection then cleanupBuckets t sessionBuckets else .ok t

end Cleanup

namespace Store

variable {A : Type}

/-- What the buckets below `n` lose and keep. -/
def collect (σ : Store A) (n : Nat) : Store A :=
  σ.filterMap fun e =>
    if hashOf e.2.key < n then
      if e.2.deadcounter > 2 then none else some (e.1, age e.2)
    else some e

theorem collect_zero (σ : Store A) : σ.collect 0 = σ := by
  unfold collect
  simp

theorem key_age (s : Session) : (age s).key = s.key := rfl

theorem sweep_collect (σ : Store A) (n : Nat) : (σ.collect n).sweep n = σ.collect (n + 1) := by
  unfold collect sweep
  rw [List.filterMap_filterMap]
  congr 1
  funext e
  by_cases hlt : hashOf e.2.key < n
  · have hne : hashOf e.2.key ≠ n := Nat.ne_of_lt hlt
    rw [if_pos hlt, if_pos (Nat.lt_succ_of_lt hlt)]
    split
    · rfl
    · rw [Option.bind_some, key_age, if_neg hne]
  · rw [if_neg hlt, Option.bind_some]
    by_cases heq : hashOf e.2.key = n
    · have hlt' : hashOf e.2.key < n + 1 := by omega
      rw [if_pos heq, if_pos hlt']
    · have hlt' : ¬ hashOf e.2.key < n + 1 := by omega
      rw [if_neg heq, if_neg hlt']

theorem sweep_of_empty {σ : Store A} {b : Nat} (h : σ.inBucket b = []) : σ.sweep b = σ := by
  refine (List.filterMap_congr fun e he => ?_).trans List.filterMap_some
  have hne : hashOf e.2.key ≠ b := by
    intro heq
    have hmem : e.1 ∈ σ.inBucket b :=
      List.mem_map.2 ⟨e, List.mem_filter.2 ⟨he, decide_eq_true heq⟩, rfl⟩
    rw [h] at hmem
    cases hmem
  rw [if_neg hne]

end Store

namespace Refines

variable {A : Type} [DecidableEq A] [Fintype A] {t : Table A} {σ : Store A}

theorem cleanupBuckets (hcard : Fintype.card A < 4294967296) (h : Refines t σ) (n : Nat) :
    ∃ t', cleanupBuckets t n = .ok t' ∧ Refines t' (σ.collect n) := by
  induction n with
  | zero =>
    rw [Store.collect_zero]
    exact ⟨t, rfl, h⟩
  | succ n ih =>
    obtain ⟨t₁, ht₁, h₁⟩ := ih
    rw [Opennop.cleanupBuckets, ht₁, ok_bind, ← Store.sweep_collect]
    cases hnext : (t₁.bucket n).next with
    | none =>
      have hempty : (σ.collect n).inBucket n = [] := by
        rw [← List.head?_eq_none_iff, ← (h₁.links n).head_eq, hnext]
      rw [Store.sweep_of_empty hempty]
      exact ⟨t₁, rfl, h₁⟩
    | some a => exact h₁.cleanuplist hcard n

/-- **A pass over the table** returns, and drops or ages every session. -/
theorem cleanupPass (hcard : Fintype.card A < 4294967296) (h : Refines t σ) :
    ∃ t', cleanupPass true t = .ok t' ∧ Refines t' (σ.collect sessionBuckets) :=
  h.cleanupBuckets hcard sessionBuckets

end Refines

/-! ## Passes among other calls -/

/-- A pass of the cleanup thread, or a call of another thread. -/
inductive Round (A : Type) where
  | pass
  | call (op : Op A)

namespace Round

variable {A : Type}

def isPass : Round A → Bool
  | .pass => true
  | .call _ => false

/-- The call is not about the session at `a`, and no sweep. -/
def LeavesAlone (a : A) : Round A → Prop
  | .pass => True
  | .call (.insert _ _) => True
  | .call (.clear a') => a' ≠ a
  | .call (.sweep _) => False
  | .call (.update a' _) => a' ≠ a

/-- What is asked of a call, as in `Store.Allows`. -/
def Allowed (σ : Store A) : Round A → Prop
  | .pass => True
  | .call op => σ.Allows op

end Round

section Rounds

variable {A : Type} [DecidableEq A]

def Table.round [Fintype A] (workers : Nat) (t : Table A) : Round A → Exec (Table A)
  | .pass => cleanupPass true t
  | .call op => t.step workers op

def Table.rounds [Fintype A] (workers : Nat) (t : Table A) : List (Round A) → Exec (Table A)
  | [] => .ok t
  | r :: l => do
    let t ← t.round workers r
    t.rounds workers l

def Store.round (workers : Nat) (σ : Store A) : Round A → Store A
  | .pass => σ.collect sessionBuckets
  | .call op => σ.step workers op

variable [Fintype A] {t : Table A} {σ : Store A} (workers : Nat)

theorem Refines.round (hcard : Fintype.card A < 4294967296) (h : Refines t σ) {r : Round A}
    (hr : r.Allowed σ) : ∃ t', t.round workers r = .ok t' ∧ Refines t' (σ.round workers r) := by
  cases r with
  | pass => exact h.cleanupPass hcard
  | call op => exact h.step hcard workers hr

theorem Refines.rounds (hcard : Fintype.card A < 4294967296) (h : Refines t σ) {l : List (Round A)}
    (hl : Trace.Along (Store.round workers) (fun σ r => r.Allowed σ) σ l) :
    ∃ t', t.rounds workers l = .ok t' ∧ Refines t' (Trace.run (Store.round workers) σ l) := by
  induction l generalizing t σ with
  | nil => exact ⟨t, rfl, h⟩
  | cons r l ih =>
    obtain ⟨t₁, ht₁, h₁⟩ := h.round workers hcard hl.1
    obtain ⟨t', ht', h'⟩ := ih h₁ hl.2
    exact ⟨t', by rw [Table.rounds, ht₁, ok_bind, ht'], h'⟩

end Rounds

/-! ## A session of which nothing is heard -/

namespace Store

variable {A : Type} [DecidableEq A] {σ : Store A} {a : A}

/-- After `j` passes without a packet, the session at `a` is idle and has been counted in all but
the first. -/
def Waited (a : A) (j : Nat) (σ : Store A) : Prop :=
  ∀ s, (a, s) ∈ σ → s.key.smallerIPPort < 65536 ∧
    (0 < j → s.larger.sequence = s.larger.previoussequence ∧ j ≤ s.deadcounter + 1)

omit [DecidableEq A] in
theorem of_mem_collect {s' : Session} (h : (a, s') ∈ σ.collect sessionBuckets)
    (hport : ∀ s, (a, s) ∈ σ → s.key.smallerIPPort < 65536) :
    ∃ s, (a, s) ∈ σ ∧ s.deadcounter ≤ 2 ∧ s' = age s := by
  obtain ⟨⟨a', s⟩, hmem, heq⟩ := List.mem_filterMap.1 h
  have hfst : a' = a := by
    split at heq
    · split at heq
      · cases heq
      · exact (Prod.mk.inj (Option.some.inj heq)).1
    · exact (Prod.mk.inj (Option.some.inj heq)).1
  subst hfst
  rw [if_pos (hashOf_lt (hport s hmem))] at heq
  split at heq
  · cases heq
  · rename_i hd
    exact ⟨s, hmem, Nat.le_of_not_lt hd, (Prod.mk.inj (Option.some.inj heq)).2.symm⟩

omit [DecidableEq A] in
theorem Waited.pass {j : Nat} (h : σ.Waited a j) : (σ.collect sessionBuckets).Waited a (j + 1) := by
  intro s' hs'
  obtain ⟨s, hs, hd, rfl⟩ := of_mem_collect hs' fun s hs => (h s hs).1
  obtain ⟨hport, hidle⟩ := h s hs
  refine ⟨hport, fun _ => ⟨rfl, ?_⟩⟩
  cases j with
  | zero => omega
  | succ j =>
    obtain ⟨heq, hcount⟩ := hidle (Nat.succ_pos j)
    have hage : (age s).deadcounter = (s.deadcounter + 1) % 256 := if_pos heq
    rw [hage, Nat.mod_eq_of_lt (by omega)]
    omega

omit [DecidableEq A] in
theorem Waited.gone (h : σ.Waited a 4) : a ∉ (σ.collect sessionBuckets).map Prod.fst := by
  intro hmem
  obtain ⟨⟨a', s'⟩, hs', rfl⟩ := List.mem_map.1 hmem
  obtain ⟨s, hs, hd, -⟩ := of_mem_collect hs' fun s hs => (h s hs).1
  have hcount := ((h s hs).2 (by decide)).2
  omega

theorem Waited.call (workers : Nat) {j : Nat} (h : σ.Waited a j) (ha : a ∈ σ.map Prod.fst)
    {op : Op A} (hop : (Round.call op).LeavesAlone a) (hallows : σ.Allows op) :
    (σ.step workers op).Waited a j := by
  intro s hs
  cases op with
  | insert calloc k =>
    cases calloc with
    | none => exact h s hs
    | some a' =>
      rcases List.mem_append.1 hs with hs | hs
      · exact h s hs
      · obtain ⟨rfl, -⟩ := Prod.mk.inj (List.mem_singleton.1 hs)
        exact absurd ha hallows
  | clear a' => exact h s (List.mem_of_mem_filter hs)
  | sweep b => exact hop.elim
  | update a' f =>
    obtain ⟨⟨a₁, s₁⟩, he, heq⟩ := List.mem_map.1 hs
    split at heq
    · rename_i ha₁
      exact absurd (ha₁.symm.trans (Prod.mk.inj heq).1) hop
    · rw [← heq] at hs
      cases heq
      exact h s he

/-- While the calls leave the session alone, it goes with the fifth pass at the latest. -/
theorem exists_gone {workers : Nat} {l : List (Round A)} {j : Nat} (h : σ.Waited a j)
    (hl : Trace.Along (round workers) (fun σ r => r.Allowed σ) σ l)
    (halone : ∀ r ∈ l, r.LeavesAlone a) (hfive : 5 ≤ j + l.countP Round.isPass) (hj : j ≤ 4) :
    ∃ l₁ l₂, l = l₁ ++ l₂ ∧ a ∉ (Trace.run (round workers) σ l₁).map Prod.fst := by
  induction l generalizing σ j with
  | nil =>
    rw [List.countP_nil] at hfive
    omega
  | cons r l ih =>
    by_cases ha : a ∈ σ.map Prod.fst
    · have halone' : ∀ r' ∈ l, r'.LeavesAlone a :=
        fun r' hr' => halone r' (List.mem_cons_of_mem r hr')
      cases r with
      | pass =>
        rw [List.countP_cons, Round.isPass, if_pos rfl] at hfive
        by_cases h4 : j = 4
        · subst h4
          exact ⟨[.pass], l, rfl, h.gone⟩
        · obtain ⟨l₁, l₂, rfl, hgone⟩ := ih h.pass hl.2 halone' (by omega) (by omega)
          exact ⟨.pass :: l₁, l₂, rfl, hgone⟩
      | call op =>
        rw [List.countP_cons, Round.isPass, if_neg (by decide)] at hfive
        have hcall := h.call workers ha (halone _ List.mem_cons_self) hl.1
        obtain ⟨l₁, l₂, rfl, hgone⟩ := ih hcall hl.2 halone' hfive hj
        exact ⟨.call op :: l₁, l₂, rfl, hgone⟩
    · exact ⟨[], r :: l, rfl, ha⟩

end Store

/-- **A session of which nothing is heard is collected by the fifth pass.** Whatever the other
threads do with the other sessions between the passes, all calls return, and by the fifth pass at
the latest the block of the session has been freed. -/
theorem silent_session_freed {A : Type} [DecidableEq A] [Fintype A]
    (hcard : Fintype.card A < 4294967296) {workers : Nat} {t : Table A} {σ : Store A}
    (h : Refines t σ) {a : A} {s : Session} (hs : (a, s) ∈ σ) (hport : s.key.smallerIPPort < 65536)
    {l : List (Round A)} (hl : Trace.Along (Store.round workers) (fun σ r => r.Allowed σ) σ l)
    (halone : ∀ r ∈ l, r.LeavesAlone a) (hfive : 5 ≤ l.countP Round.isPass) :
    (∃ t', t.rounds workers l = .ok t') ∧
      ∃ l₁ l₂ t₁, l = l₁ ++ l₂ ∧ t.rounds workers l₁ = .ok t₁ ∧ t₁.heap a = none := by
  have hwaited : σ.Waited a 0 := by
    intro s' hs'
    obtain ⟨n, hn, rfl⟩ := h.heap_of_mem hs
    obtain ⟨n', hn', rfl⟩ := h.heap_of_mem hs'
    obtain rfl : n = n' := Option.some.inj (hn.symm.trans hn')
    exact ⟨hport, nofun⟩
  obtain ⟨t', ht', -⟩ := h.rounds workers hcard hl
  obtain ⟨l₁, l₂, rfl, hgone⟩ := Store.exists_gone hwaited hl halone (by omega) (by omega)
  obtain ⟨t₁, ht₁, h₁⟩ := h.rounds workers hcard (Trace.along_append.1 hl).1
  exact ⟨⟨t', ht'⟩, l₁, l₂, t₁, rfl, ht₁, h₁.free_iff.1 hgone⟩

/-- Five passes, and an allocation that fails between the first two. -/
def fivePasses : List (Round (Fin 2)) :=
  [.pass, .call (.insert none ⟨7, 1, 3, 1⟩), .pass, .pass, .pass, .pass]

theorem silent_session_freed_fivePasses : ∃ t : Table (Fin 2),
    insertsession 1 (initializeSessiontable (Fin 2)) (some 0) ⟨10, 1, 9, 1⟩ = .ok (t, some 0) ∧
      ∃ l₁ l₂ t₁, fivePasses = l₁ ++ l₂ ∧ t.rounds 1 l₁ = .ok t₁ ∧ t₁.heap 0 = none := by
  have hcard : Fintype.card (Fin 2) < 4294967296 := by decide
  have h₀ : Refines (initializeSessiontable (Fin 2)) [] := .init
  have h := h₀.inserted hcard (a := 0) rfl ⟨10, 1, 9, 1⟩ 0
  have hl : Trace.Along (Store.round 1) (fun σ r => r.Allowed σ)
      (Store.insert [] 0 (newSession ⟨10, 1, 9, 1⟩ 0)) fivePasses :=
    ⟨trivial, trivial, trivial, trivial, trivial, trivial, trivial⟩
  have halone : ∀ r ∈ fivePasses, r.LeavesAlone 0 := by
    intro r hr
    simp only [fivePasses, List.mem_cons, List.not_mem_nil, or_false] at hr
    rcases hr with rfl | rfl | rfl | rfl | rfl | rfl <;> trivial
  exact ⟨_, h₀.insertsession_eq rfl 1 _, (silent_session_freed hcard h
    (List.mem_append_right _ (List.mem_singleton.2 rfl)) (by decide) hl halone (by decide)).2⟩

end Opennop
