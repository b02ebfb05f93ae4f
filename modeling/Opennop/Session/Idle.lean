import Opennop.Session.Keepalive
import Opennop.Session.Sound

/-!
# Which sessions are declared dead

The life of one session, from its insertion on: `updateseq` for the packets of its connection,
sweeps of its bucket, and calls that are about other sessions. A sweep removes the session only as
the last of at least four in a row without a packet in between that is not a keepalive, and the
others of them sent a keepalive for it. `Swept` says so of a run with the number of the sweeps that
sent, and `deadcounter` is that number.
-/

namespace Opennop

variable {A : Type} [DecidableEq A]

/-- A call during the life of a session. -/
inductive LifeStep (A : Type) where
  /-- `updateseq` on the session -/
  | update (p : Mem)
  /-- `cleanuplist` of its bucket -/
  | sweep
  /-- A call about other sessions. -/
  | other (op : Op A)

/-- The call on the table, for the session of the connection `k` at `a`. -/
def LifeStep.op (k : Key) (a : A) : LifeStep A → Op A
  | .update p => .update a (updateseq k.largerIP p)
  | .sweep => .sweep (hashOf k)
  | .other op => op

/-- The call is not about the session at `a` or its bucket. -/
def Op.Elsewhere (a : A) (b : Nat) : Op A → Prop
  | .insert calloc _ => calloc ≠ some a
  | .clear a' => a' ≠ a
  | .sweep b' => b' ≠ b
  | .update a' _ => a' ≠ a

/-- What is asked of a call: those about other sessions are in order. -/
def LifeStep.Allowed (k : Key) (a : A) (t : Table A) : LifeStep A → Prop
  | .other op => op.Elsewhere a (hashOf k) ∧ ∀ σ, Refines t σ → σ.Allows op
  | _ => True

/-- A call that is neither a sweep nor `updateseq` for a packet other than a keepalive. -/
def LifeStep.Quiet (k : Key) (a : A) (t : Table A) : LifeStep A → Prop
  | .update p => ∃ s, t.record a = some s ∧ isKeepalive p (s.endpoint (sourceSide k.largerIP p))
  | .sweep => False
  | .other op => LifeStep.Allowed k a t (.other op)

section Life

variable [Fintype A] (workers : Nat) (k : Key) (a : A)

/-- The calls `l`, each of which meets `P`, take the table `t` to `t'`. -/
inductive Life (P : Table A → LifeStep A → Prop) (t : Table A) :
    List (LifeStep A) → Table A → Prop where
  | nil : Life P t [] t
  | snoc {l : List (LifeStep A)} {t₁ t₂ : Table A} {st : LifeStep A} : Life P t l t₁ → P t₁ st →
      t₁.step workers (st.op k a) = .ok t₂ → Life P t (l ++ [st]) t₂

/-- The sweep of the bucket takes `t` to `t'` and sends a keepalive for the session. -/
def SweepSends (t t' : Table A) : Prop :=
  ∃ s m sent, t.record a = some s ∧ keepalive s = some m ∧
    cleanuplistSends t (hashOf k) = .ok (t', sent) ∧ m ∈ sent

/-- The run ends in `c` sweeps that sent a keepalive for the session, with only quiet calls after
the first of them. -/
def Swept : Nat → Table A → List (LifeStep A) → Table A → Prop
  | 0, t, l, t' => Life workers k a (LifeStep.Allowed k a) t l t'
  | c + 1, t, l, t' => ∃ l' u t₁ t₂, l = l' ++ .sweep :: u ∧ Swept c t l' t₁ ∧
      SweepSends k a t₁ t₂ ∧ Life workers k a (LifeStep.Quiet k a) t₂ u t'

variable {workers k a}

omit [DecidableEq A] [Fintype A] in
theorem LifeStep.Quiet.allowed {t : Table A} {st : LifeStep A} (h : st.Quiet k a t) :
    st.Allowed k a t := by
  cases st with
  | update p => trivial
  | sweep => exact h.elim
  | other op => exact h

theorem Life.sweep {t t₁ t₂ : Table A} {l : List (LifeStep A)}
    (h : Life workers k a (LifeStep.Allowed k a) t l t₁)
    (hclean : cleanuplist t₁ (hashOf k) = .ok t₂) :
    Life workers k a (LifeStep.Allowed k a) t (l ++ [.sweep]) t₂ :=
  .snoc h trivial hclean

theorem Swept.snoc {c : Nat} {t t₁ t₂ : Table A} {l : List (LifeStep A)}
    (h : Swept workers k a c t l t₁) (st : LifeStep A) (hquiet : st.Quiet k a t₁)
    (hstep : t₁.step workers (st.op k a) = .ok t₂) : Swept workers k a c t (l ++ [st]) t₂ := by
  cases c with
  | zero => exact Life.snoc (P := LifeStep.Allowed k a) h hquiet.allowed hstep
  | succ c =>
    obtain ⟨l', u, s₁, s₂, rfl, hswept, hsends, hlife⟩ := h
    refine ⟨l', u ++ [st], s₁, s₂, ?_, hswept, hsends, .snoc hlife hquiet hstep⟩
    rw [List.append_assoc, List.cons_append]

end Life

/-! ## The record of the session after a call -/

section Record

variable {t t' : Table A} {σ : Store A} {a : A} {k : Key} {s : Session}

omit [DecidableEq A] in
theorem Refines.record_iff (h : Refines t σ) : t.record a = some s ↔ (a, s) ∈ σ := by
  unfold Table.record
  rw [h.heap, Option.map_eq_some_iff]

omit [DecidableEq A] in
theorem Refines.record_unique (h : Refines t σ) {s' : Session} (hs : (a, s) ∈ σ)
    (hs' : (a, s') ∈ σ) : s = s' := by
  rw [← h.record_iff] at hs hs'
  exact Option.some.inj (hs.symm.trans hs')

theorem mem_modify_self {f : Session → Session} (hs : (a, s) ∈ σ) : (a, f s) ∈ σ.modify a f :=
  List.mem_map.2 ⟨(a, s), hs, if_pos rfl⟩

omit [DecidableEq A] in
theorem mem_sweep_alive (hs : (a, s) ∈ σ) (hd : ¬ s.deadcounter > 2) :
    (a, age s) ∈ σ.sweep (hashOf s.key) :=
  List.mem_filterMap.2 ⟨(a, s), hs, by rw [if_pos rfl, if_neg hd]⟩

omit [DecidableEq A] in
theorem Refines.not_mem_sweep (h : Refines t σ) (hs : (a, s) ∈ σ) (hd : s.deadcounter > 2)
    (s' : Session) : (a, s') ∉ σ.sweep (hashOf s.key) := by
  intro hmem
  obtain ⟨⟨a', s₁⟩, he, heq⟩ := List.mem_filterMap.1 hmem
  split at heq
  · split at heq
    · cases heq
    · obtain ⟨rfl, -⟩ := Prod.mk.inj (Option.some.inj heq)
      obtain rfl := h.record_unique he hs
      exact absurd hd (by assumption)
  · obtain ⟨rfl, rfl⟩ := Prod.mk.inj (Option.some.inj heq)
    obtain rfl := h.record_unique he hs
    exact absurd rfl (by assumption)

theorem mem_of_step_elsewhere {workers b : Nat} {op : Op A} (hop : op.Elsewhere a b)
    (hb : ∀ s, (a, s) ∈ σ → hashOf s.key = b) (hs : (a, s) ∈ σ.step workers op) : (a, s) ∈ σ := by
  cases op with
  | insert calloc k' =>
    cases calloc with
    | none => exact hs
    | some a' =>
      rcases List.mem_append.1 hs with hs | hs
      · exact hs
      · obtain ⟨rfl, -⟩ := Prod.mk.inj (List.mem_singleton.1 hs)
        exact absurd rfl hop
  | clear a' => exact List.mem_of_mem_filter hs
  | sweep b' =>
    obtain ⟨⟨a', s₁⟩, he, heq⟩ := List.mem_filterMap.1 hs
    split at heq
    · rename_i hb'
      split at heq
      · cases heq
      · obtain ⟨rfl, -⟩ := Prod.mk.inj (Option.some.inj heq)
        exact absurd (hb'.symm.trans (hb s₁ he)) hop
    · rw [← Option.some.inj heq]
      exact he
  | update a' f =>
    obtain ⟨⟨a₁, s₁⟩, he, heq⟩ := List.mem_map.1 hs
    split at heq
    · rename_i ha
      exact absurd (ha.symm.trans (Prod.mk.inj heq).1) hop
    · rw [← heq]
      exact he

theorem key_updateseq (largerIP : Nat) (p : Mem) (s : Session) :
    (updateseq largerIP p s).key = s.key := by
  unfold updateseq updateseqOf
  split
  · split
    · rfl
    · cases sourceSide largerIP p <;> rfl
  · rfl

theorem queue_updateseq (largerIP : Nat) (p : Mem) (s : Session) :
    (updateseq largerIP p s).queue = s.queue := by
  unfold updateseq updateseqOf
  split
  · split
    · rfl
    · cases sourceSide largerIP p <;> rfl
  · rfl

/-- A packet other than a keepalive resets the counter. -/
theorem deadcounter_updateseq {largerIP : Nat} (h0 : largerIP ≠ 0) {p : Mem}
    (hp : ¬ isKeepalive p (s.endpoint (sourceSide largerIP p))) :
    (updateseq largerIP p s).deadcounter = 0 := by
  unfold updateseq updateseqOf
  rw [if_pos h0, if_neg hp]

theorem updateseq_keepalive {largerIP : Nat} {p : Mem}
    (hp : isKeepalive p (s.endpoint (sourceSide largerIP p))) : updateseq largerIP p s = s := by
  unfold updateseq updateseqOf
  rw [if_pos hp]
  split <;> rfl

end Record

/-! ## Whole lives -/

section Whole

variable [Fintype A] {t t' : Table A} {a : A} {k : Key} {workers : Nat}

/-- What a life keeps: the table is in order, and the counter of the session, while it is there, is
the number of sweeps. -/
structure Counted (workers : Nat) (k : Key) (a : A) (t : Table A) (l : List (LifeStep A))
    (t' : Table A) : Prop where
  refines : ∃ σ, Refines t' σ
  swept : ∀ s, t'.record a = some s → s.key = k ∧ Swept workers k a s.deadcounter t l t'
  life : Life workers k a (LifeStep.Allowed k a) t l t'

variable (hcard : Fintype.card A < 4294967296)
include hcard

/-- **One call.** -/
theorem Counted.snoc (h0 : k.largerIP ≠ 0) {l : List (LifeStep A)} {t₁ t₂ : Table A}
    {st : LifeStep A} (h : Counted workers k a t l t₁) (hst : st.Allowed k a t₁)
    (hstep : t₁.step workers (st.op k a) = .ok t₂) : Counted workers k a t (l ++ [st]) t₂ := by
  obtain ⟨⟨σ, hσ⟩, hswept, hlife⟩ := h
  have hlife' := Life.snoc hlife hst hstep
  cases st with
  | update p =>
    obtain ⟨n, hn⟩ : ∃ n, t₁.heap a = some n := by
      cases hn : t₁.heap a with
      | some n => exact ⟨n, rfl⟩
      | none =>
        simp only [LifeStep.op, Table.step, Table.modify, Table.load, hn, error_bind] at hstep
        cases hstep
    have hmem := hσ.mem_of_heap hn
    obtain ⟨hkey, hswept⟩ := hswept _ (hσ.record_iff.2 hmem)
    have hallows : σ.Allows (.update a (updateseq k.largerIP p)) :=
      ⟨hσ.mem_iff.2 ⟨n, hn⟩, key_updateseq _ p, queue_updateseq _ p⟩
    obtain ⟨t₂', hstep', h₂⟩ := hσ.step hcard workers hallows
    obtain rfl : t₂ = t₂' := Except.ok.inj (hstep.symm.trans hstep')
    refine ⟨⟨_, h₂⟩, fun s hs => ?_, hlife'⟩
    obtain rfl := h₂.record_unique (mem_modify_self hmem) (h₂.record_iff.1 hs)
    refine ⟨(key_updateseq _ p _).trans hkey, ?_⟩
    by_cases hp : isKeepalive p (n.session.endpoint (sourceSide k.largerIP p))
    · rw [updateseq_keepalive hp]
      exact hswept.snoc (.update p) ⟨_, hσ.record_iff.2 hmem, hp⟩ hstep
    · rw [deadcounter_updateseq h0 hp]
      exact hlife'
  | sweep =>
    obtain ⟨t₂', hclean, hsends, h₂⟩ := hσ.cleanuplistSends hcard (hashOf k)
    obtain rfl : t₂ = t₂' := Except.ok.inj (hstep.symm.trans hclean)
    refine ⟨⟨_, h₂⟩, fun s' hs' => ?_, hlife'⟩
    have hmem' := h₂.record_iff.1 hs'
    -- the record comes from one of the same address, which is the session's
    obtain ⟨⟨a', s⟩, hmem, heq⟩ := List.mem_filterMap.1 hmem'
    obtain rfl : a' = a := by
      split at heq
      · split at heq
        · cases heq
        · exact (Prod.mk.inj (Option.some.inj heq)).1
      · exact (Prod.mk.inj (Option.some.inj heq)).1
    obtain ⟨rfl, hswept⟩ := hswept s (hσ.record_iff.2 hmem)
    have hd : ¬ s.deadcounter > 2 := fun hd => hσ.not_mem_sweep hmem hd s' hmem'
    obtain rfl := h₂.record_unique (mem_sweep_alive hmem hd) hmem'
    refine ⟨rfl, ?_⟩
    rw [deadcounter_age]
    cases hm : keepalive s with
    | none => exact hlife'
    | some m =>
      rw [Option.isSome_some, if_pos rfl, Nat.mod_eq_of_lt (by omega)]
      have hsent : m ∈ σ.sends (hashOf s.key) := by
        refine List.mem_flatMap.2 ⟨(a', s), List.mem_filter.2 ⟨hmem, by simp⟩, ?_⟩
        unfold sendsFor
        rw [if_neg hd, hm]
        simp
      exact ⟨l, [], t₁, t₂, rfl, hswept, ⟨s, m, _, hσ.record_iff.2 hmem, hm, hsends, hsent⟩, .nil⟩
  | other op =>
    obtain ⟨helse, hallows⟩ := hst
    obtain ⟨t₂', hstep', h₂⟩ := hσ.step hcard workers (hallows σ hσ)
    obtain rfl : t₂ = t₂' := Except.ok.inj (hstep.symm.trans hstep')
    refine ⟨⟨_, h₂⟩, fun s' hs' => ?_, hlife'⟩
    have hmem' := mem_of_step_elsewhere helse (fun s hs => by
      rw [(hswept s (hσ.record_iff.2 hs)).1]) (h₂.record_iff.1 hs')
    obtain ⟨hkey, hswept⟩ := hswept s' (hσ.record_iff.2 hmem')
    exact ⟨hkey, hswept.snoc (.other op) ⟨helse, hallows⟩ hstep⟩

theorem Life.counted (h0 : k.largerIP ≠ 0) {l : List (LifeStep A)}
    (h : Counted workers k a t [] t) (hlife : Life workers k a (LifeStep.Allowed k a) t l t') :
    Counted workers k a t l t' := by
  induction hlife with
  | nil => exact h
  | snoc _ hst hstep ih => exact ih.snoc hcard h0 hst hstep

/-- **A sweep removes only a session that three sweeps in a row, at least, have sent a keepalive
for**, with no packet since the first of them other than keepalives. -/
theorem removed_of_swept {t₀ : Table A} {σ₀ : Store A} (h₀ : Refines t₀ σ₀) (ha : t₀.heap a = none)
    (h0 : k.largerIP ≠ 0) (hinsert : insertsession workers t₀ (some a) k = .ok (t, some a))
    {l : List (LifeStep A)} (hlife : Life workers k a (LifeStep.Allowed k a) t l t')
    (hthere : t'.record a ≠ none) {t'' : Table A} (hsweep : cleanuplist t' (hashOf k) = .ok t'')
    (hgone : t''.record a = none) : ∃ c, 3 ≤ c ∧ Swept workers k a c t l t' := by
  rw [h₀.insertsession_eq ha] at hinsert
  obtain rfl : t₀.inserted a k (pickQueue workers t₀.sessions) = t :=
    (Prod.mk.inj (Except.ok.inj hinsert)).1
  have hnew := h₀.inserted hcard ha k (pickQueue workers t₀.sessions)
  have hfirst : Counted workers k a (t₀.inserted a k (pickQueue workers t₀.sessions)) []
      (t₀.inserted a k (pickQueue workers t₀.sessions)) := by
    refine ⟨⟨_, hnew⟩, fun s hs => ?_, .nil⟩
    have hmem : (a, newSession k (pickQueue workers t₀.sessions)) ∈
        σ₀.insert a (newSession k (pickQueue workers t₀.sessions)) :=
      List.mem_append_right _ (List.mem_singleton.2 rfl)
    obtain rfl := hnew.record_unique hmem (hnew.record_iff.1 hs)
    exact ⟨rfl, Life.nil⟩
  obtain ⟨⟨σ, hσ⟩, hswept, -⟩ := hlife.counted hcard h0 hfirst
  obtain ⟨s, hs⟩ := Option.ne_none_iff_exists'.1 hthere
  obtain ⟨rfl, hswept⟩ := hswept s hs
  refine ⟨s.deadcounter, ?_, hswept⟩
  -- a session with a smaller counter would still be there
  refine Nat.lt_of_not_le fun hd => ?_
  obtain ⟨t₂, hclean, h₂⟩ := hσ.cleanuplist hcard (hashOf s.key)
  obtain rfl : t'' = t₂ := Except.ok.inj (hsweep.symm.trans hclean)
  have halive := h₂.record_iff.2 (mem_sweep_alive (hσ.record_iff.1 hs) (by omega))
  rw [hgone] at halive
  cases halive

end Whole

/-- A connection of which no packet is seen is removed by the fourth sweep. -/
theorem removed_of_swept_silent : ∃ t t' t'' : Table (Fin 2),
    insertsession 1 (initializeSessiontable (Fin 2)) (some 0) ⟨10, 1, 9, 1⟩ = .ok (t, some 0) ∧
      t'.record 0 ≠ none ∧ cleanuplist t' (hashOf ⟨10, 1, 9, 1⟩) = .ok t'' ∧ t''.record 0 = none ∧
      ∃ c, 3 ≤ c ∧ Swept 1 ⟨10, 1, 9, 1⟩ 0 c t [.sweep, .sweep, .sweep] t' := by
  have hcard : Fintype.card (Fin 2) < 4294967296 := by decide
  have h₀ : Refines (initializeSessiontable (Fin 2)) [] := .init
  have hinsert := h₀.insertsession_eq (a := 0) rfl 1 ⟨10, 1, 9, 1⟩
  have h := h₀.inserted hcard (a := 0) rfl ⟨10, 1, 9, 1⟩
    (pickQueue 1 (initializeSessiontable (Fin 2)).sessions)
  obtain ⟨t₁, ht₁, h₁⟩ := h.cleanuplist hcard (hashOf ⟨10, 1, 9, 1⟩)
  obtain ⟨t₂, ht₂, h₂⟩ := h₁.cleanuplist hcard (hashOf ⟨10, 1, 9, 1⟩)
  obtain ⟨t₃, ht₃, h₃⟩ := h₂.cleanuplist hcard (hashOf ⟨10, 1, 9, 1⟩)
  obtain ⟨t₄, ht₄, h₄⟩ := h₃.cleanuplist hcard (hashOf ⟨10, 1, 9, 1⟩)
  have hlife : Life 1 ⟨10, 1, 9, 1⟩ 0 (LifeStep.Allowed ⟨10, 1, 9, 1⟩ 0) _
      [.sweep, .sweep, .sweep] t₃ := ((Life.nil.sweep ht₁).sweep ht₂).sweep ht₃
  have hthere : t₃.record 0 ≠ none := by
    have hrecord : t₃.record 0 = some { newSession ⟨10, 1, 9, 1⟩ 0 with deadcounter := 3 } :=
      h₃.record_iff.2 (by decide +kernel)
    rw [hrecord]
    simp
  have hgone : t₄.record 0 = none := by
    unfold Table.record
    rw [h₄.free_iff.1 (by decide +kernel)]
    rfl
  exact ⟨_, t₃, t₄, hinsert, hthere, ht₄, hgone,
    removed_of_swept hcard h₀ rfl (by decide) hinsert hlife hthere ht₄ hgone⟩

end Opennop
