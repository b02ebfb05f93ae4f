import Opennop.Session.Calls
import Opennop.Session.Runs

/-!
# Tables with one session for each connection

`Sound` adds to the shape of the table that no two sessions have the same key. A sound table is a
partial map from connections to records, `Table.sessionAt`, and every call changes it at one
connection: `Sound.exec_on` says so for a whole program that keeps to the discipline of
`Opennop.Session.Calls`.
-/

namespace Opennop

variable {A : Type}

namespace Table

def entry [Fintype A] (t : Table A) (k : Key) : Option (A × Session) :=
  match getsession t k with
  | .ok (some a) => (t.record a).map fun s => (a, s)
  | _ => none

def sessionAt [Fintype A] (t : Table A) (k : Key) : Option Session :=
  (t.entry k).map Prod.snd

theorem record_eq_some {t : Table A} {a : A} {s : Session} :
    t.record a = some s ↔ ∃ n, t.heap a = some n ∧ n.session = s := by
  simp [record]

theorem record_eq_none {t : Table A} {a : A} : t.record a = none ↔ t.heap a = none := by
  simp [record]

end Table

/-- **A table in good shape** with at most one session for a connection. -/
structure Sound (t : Table A) : Prop where
  refines : ∃ σ, Refines t σ
  unique : ∀ {a b : A} {s s' : Session},
    t.record a = some s → t.record b = some s' → s.key = s'.key → a = b

namespace Sound

variable {t t' : Table A}

theorem init : Sound (initializeSessiontable A) where
  refines := ⟨[], Refines.init⟩
  unique h := by cases h

theorem of_records (h : Sound t) (hr : ∃ σ, Refines t' σ)
    (hk : ∀ {a : A} {s : Session}, t'.record a = some s → ∃ s₀, t.record a = some s₀ ∧
    s₀.key = s.key) :
    Sound t' where
  refines := hr
  unique ha hb hkey := by
    obtain ⟨s₀, hs₀, hs⟩ := hk ha
    obtain ⟨s₁, hs₁, hs'⟩ := hk hb
    exact h.unique hs₀ hs₁ (by rw [hs, hs', hkey])

section Lookup

variable [Fintype A]

theorem getsession_ok (h : Sound t) (k : Key) : ∃ r, getsession t k = .ok r ∧
    ∀ a, r = some a ↔ ∃ s, t.record a = some s ∧ s.key = k := by
  obtain ⟨σ, hr⟩ := h.refines
  refine ⟨_, hr.getsession k, fun a => ?_⟩
  unfold Store.lookup
  rw [Option.map_eq_some_iff]
  constructor
  · rintro ⟨⟨a, s⟩, hf, rfl⟩
    refine ⟨s, ?_, by simpa using List.find?_some hf⟩
    exact Table.record_eq_some.2 (hr.heap_of_mem (List.mem_of_find?_eq_some hf))
  · rintro ⟨s, hs, rfl⟩
    have hm : (a, s) ∈ σ := (hr.heap a s).2 (Table.record_eq_some.1 hs)
    cases hf : σ.find? fun e => e.2.key = s.key with
    | none => exact absurd (decide_eq_true rfl) (List.find?_eq_none.1 hf _ hm)
    | some e =>
      have he := Table.record_eq_some.2 (hr.heap_of_mem (List.mem_of_find?_eq_some hf))
      exact ⟨e, rfl, h.unique he hs (by simpa using List.find?_some hf)⟩

theorem entry_eq_some (h : Sound t) {k : Key} {a : A} {s : Session} :
    t.entry k = some (a, s) ↔ t.record a = some s ∧ s.key = k := by
  obtain ⟨r, hr, hiff⟩ := h.getsession_ok k
  unfold Table.entry
  rw [hr]
  cases r with
  | none =>
    refine ⟨fun h' => (nomatch h'), fun ⟨hs, hk⟩ => ?_⟩
    exact (nomatch (hiff a).2 ⟨s, hs, hk⟩)
  | some b =>
    obtain ⟨s', hs', hk'⟩ := (hiff b).1 rfl
    simp only [hs', Option.map_some, Option.some.injEq, Prod.mk.injEq]
    constructor
    · rintro ⟨rfl, rfl⟩
      exact ⟨hs', hk'⟩
    · rintro ⟨hs, hk⟩
      obtain rfl := h.unique hs' hs (by rw [hk, hk'])
      rw [hs', Option.some.injEq] at hs
      exact ⟨rfl, hs⟩

theorem sessionAt_eq_some (h : Sound t) {k : Key} {s : Session} :
    t.sessionAt k = some s ↔ ∃ a, t.record a = some s ∧ s.key = k := by
  unfold Table.sessionAt
  rw [Option.map_eq_some_iff]
  constructor
  · rintro ⟨⟨a, s⟩, he, rfl⟩
    exact ⟨a, h.entry_eq_some.1 he⟩
  · rintro ⟨a, ha⟩
    exact ⟨(a, s), h.entry_eq_some.2 ha, rfl⟩

theorem getsession_eq (h : Sound t) (k : Key) :
    getsession t k = .ok ((t.entry k).map Prod.fst) := by
  obtain ⟨r, hr, hiff⟩ := h.getsession_ok k
  rw [hr]
  congr 1
  cases r with
  | none =>
    cases he : t.entry k with
    | none => rfl
    | some e => exact (nomatch (hiff e.1).2 ⟨e.2, h.entry_eq_some.1 he⟩)
  | some a =>
    obtain ⟨s, hs⟩ := (hiff a).1 rfl
    rw [h.entry_eq_some.2 hs]
    rfl

end Lookup

/-! ## Single calls -/

section Calls

variable [DecidableEq A] [Fintype A] (hcard : Fintype.card A < 4294967296)

omit [Fintype A] in
theorem modify (h : Sound t) {a : A} {s : Session} (hs : t.record a = some s)
    {f : Session → Session} (hf : Prog.Keeps f) : ∃ t', t.modify a f = .ok t' ∧ Sound t' ∧
      t'.record a = some (f s) ∧ ∀ b, b ≠ a → t'.record b = t.record b := by
  obtain ⟨n, hn, rfl⟩ := Table.record_eq_some.1 hs
  obtain ⟨σ, hr⟩ := h.refines
  have hself : (t.store a { n with session := f n.session }).record a = some (f n.session) := by
    simp [Table.record, Table.store]
  have hother : ∀ b, b ≠ a →
      (t.store a { n with session := f n.session }).record b = t.record b := by
    intro b hb
    simp [Table.record, Table.store, hb]
  refine ⟨_, by simp [Table.modify, Table.load, hn], ?_, hself, hother⟩
  refine h.of_records ⟨_, hr.modified hn (fun s => (hf s).1) fun s => (hf s).2⟩ ?_
  intro b s' hb
  by_cases hba : b = a
  · subst hba
    rw [hself, Option.some.injEq] at hb
    exact ⟨n.session, hs, by rw [← hb, (hf _).1]⟩
  · rw [hother b hba] at hb
    exact ⟨s', hb, rfl⟩

include hcard

theorem clearsession (h : Sound t) {a : A} {s : Session} (hs : t.record a = some s) :
    ∃ t', clearsession t a = .ok t' ∧ Sound t' ∧ t'.record a = none ∧
      ∀ b, b ≠ a → t'.record b = t.record b := by
  obtain ⟨n, hn, -⟩ := Table.record_eq_some.1 hs
  obtain ⟨σ, hr⟩ := h.refines
  have hself : (t.removed a n).record a = none := by simp [Table.record, Table.removed]
  have hother : ∀ b, b ≠ a → (t.removed a n).record b = t.record b := by
    intro b hb
    cases hm : t.heap b <;> simp [Table.record, Table.removed, hb, hm]
  refine ⟨_, hr.clearsession_eq hn, ?_, hself, hother⟩
  refine h.of_records ⟨_, hr.removed hcard hn⟩ ?_
  intro b s' hb
  by_cases hba : b = a
  · subst hba
    rw [hself] at hb
    cases hb
  · rw [hother b hba] at hb
    exact ⟨s', hb, rfl⟩

theorem insertsession (h : Sound t) {a : A} (ha : t.heap a = none) {k : Key}
    (hk : ∀ b s, t.record b = some s → s.key ≠ k) (workers : Nat) :
    ∃ t', insertsession workers t (some a) k = .ok (t', some a) ∧ Sound t' ∧
      t'.record a = some (newSession k (pickQueue workers t.sessions)) ∧
      ∀ b, b ≠ a → t'.record b = t.record b := by
  obtain ⟨σ, hr⟩ := h.refines
  have hself : (t.inserted a k (pickQueue workers t.sessions)).record a =
      some (newSession k (pickQueue workers t.sessions)) := by
    simp [Table.record, Table.inserted]
  have hother : ∀ b, b ≠ a →
      (t.inserted a k (pickQueue workers t.sessions)).record b = t.record b := by
    intro b hb
    cases hm : t.heap b with
    | none => simp [Table.record, Table.inserted, hb, hm]
    | some m =>
      simp only [Table.record, Table.inserted, if_neg hb, hm, Option.map_some]
      split <;> rfl
  refine ⟨_, hr.insertsession_eq ha workers k, ⟨⟨_, hr.inserted hcard ha k _⟩, ?_⟩, hself, hother⟩
  intro b c s s' hb hc hkey
  by_cases hba : b = a
  · by_cases hca : c = a
    · rw [hba, hca]
    · rw [hba, hself, Option.some.injEq] at hb
      rw [hother c hca] at hc
      exact absurd (by rw [← hkey, ← hb]; rfl) (hk c s' hc)
  · rw [hother b hba] at hb
    by_cases hca : c = a
    · rw [hca, hself, Option.some.injEq] at hc
      exact absurd (by rw [hkey, ← hc]; rfl) (hk b s hb)
    · rw [hother c hca] at hc
      exact h.unique hb hc hkey

theorem cleanuplist (h : Sound t) (b : Nat) : ∃ t', cleanuplist t b = .ok t' ∧ Sound t' ∧
    ∀ a s', t'.record a = some s' ↔ ∃ s, t.record a = some s ∧
      if hashOf s.key = b then s.deadcounter ≤ 2 ∧ s' = age s else s' = s := by
  obtain ⟨σ, hr⟩ := h.refines
  obtain ⟨t', ht, hr'⟩ := hr.cleanuplist hcard b
  have hiff : ∀ a s', t'.record a = some s' ↔ ∃ s, t.record a = some s ∧
      if hashOf s.key = b then s.deadcounter ≤ 2 ∧ s' = age s else s' = s := by
    intro a s'
    rw [Table.record_eq_some, ← hr'.heap]
    simp only [Table.record_eq_some, ← hr.heap]
    unfold Store.sweep
    rw [List.mem_filterMap]
    constructor
    · rintro ⟨⟨a', s⟩, hm, heq⟩
      split at heq <;> rename_i hb
      · split at heq <;> rename_i hd
        · cases heq
        · cases heq
          exact ⟨s, hm, by rw [if_pos hb]; exact ⟨Nat.le_of_not_lt hd, rfl⟩⟩
      · cases heq
        exact ⟨_, hm, by rw [if_neg hb]⟩
    · rintro ⟨s, hm, hs⟩
      refine ⟨(a, s), hm, ?_⟩
      split at hs <;> rename_i hb
      · rw [if_pos hb, if_neg (Nat.not_lt.2 hs.1), hs.2]
      · rw [if_neg hb, hs]
  refine ⟨t', ht, h.of_records ⟨_, hr'⟩ ?_, hiff⟩
  intro a s' hs'
  obtain ⟨s, hs, hif⟩ := (hiff a s').1 hs'
  refine ⟨s, hs, ?_⟩
  split at hif
  · rw [hif.2]
    rfl
  · rw [hif]

end Calls

/-! ## Whole programs -/

section Programs

variable [DecidableEq A] [Fintype A] {α : Type}

/-- What a program does to a table, from what it does to the record of `k`: it faults as that does,
or it leaves a sound table with that record and all others as they were. -/
inductive Outcome (t : Table A) (k : Key) : Exec (Option Session × α) → Exec (Table A × α) → Prop
  | fault (e : Fault) : Outcome t k (.error e) (.error e)
  | ok {t' : Table A} (v : α) : Sound t' → (∀ k', k' ≠ k → t'.sessionAt k' = t.sessionAt k') →
    Outcome t k (.ok (t'.sessionAt k, v)) (.ok (t', v))

omit [DecidableEq A] in
theorem Outcome.of_ok {k : Key} {x : Exec (Option Session × α)} {y : Exec (Table A × α)}
    {st : Option Session} {v : α} (h : Outcome t k x y) (hx : x = .ok (st, v)) :
    ∃ t', y = .ok (t', v) ∧ Sound t' ∧ t'.sessionAt k = st ∧
      ∀ k', k' ≠ k → t'.sessionAt k' = t.sessionAt k' := by
  cases h with
  | fault e => cases hx
  | @ok t' v h' hother =>
    cases hx
    exact ⟨t', rfl, h', rfl, hother⟩

omit [DecidableEq A] in
theorem Outcome.of_exec {k : Key} {t' : Table A} {v : α} {x : Exec (Option Session × α)}
    {y : Exec (Table A × α)} (h : Outcome t k x y) (hy : y = .ok (t', v)) :
    x = .ok (t'.sessionAt k, v) ∧ Sound t' ∧ ∀ k', k' ≠ k → t'.sessionAt k' = t.sessionAt k' := by
  subst hy
  cases h with
  | ok _ h' hother => exact ⟨rfl, h', hother⟩

omit [DecidableEq A] in
theorem Outcome.ok_of_eq {k : Key} {t' : Table A} {st : Option Session} (v : α) (h : Sound t')
    (hst : t'.sessionAt k = st) (hother : ∀ k', k' ≠ k → t'.sessionAt k' = t.sessionAt k') :
    Outcome t k (.ok (st, v)) (.ok (t', v)) := by
  rw [← hst]
  exact .ok v h hother

theorem sessionAt_of_record (h : Sound t) {a : A} {k : Key} {st : Option Session}
    (ha : t.record a = st) (hk : ∀ s, st = some s → s.key = k)
    (hother : ∀ b s, b ≠ a → t.record b = some s → s.key ≠ k) : t.sessionAt k = st := by
  refine Option.ext fun s => ?_
  rw [h.sessionAt_eq_some]
  constructor
  · rintro ⟨b, hb, hs⟩
    by_cases hba : b = a
    · rw [← ha, ← hba, hb]
    · exact absurd hs (hother b s hba hb)
  · intro hs
    exact ⟨a, by rw [ha, hs], hk s hs⟩

theorem sessionAt_congr (h : Sound t) (h' : Sound t') {a : A} {k : Key}
    (hother : ∀ b, b ≠ a → t'.record b = t.record b) (ha : ∀ s, t.record a = some s → s.key ≠ k)
    (ha' : ∀ s, t'.record a = some s → s.key ≠ k) : t'.sessionAt k = t.sessionAt k := by
  refine Option.ext fun s => ?_
  rw [h.sessionAt_eq_some, h'.sessionAt_eq_some]
  refine exists_congr fun b => ?_
  by_cases hba : b = a
  · subst hba
    exact ⟨fun hb => absurd hb.2 (ha' s hb.1), fun hb => absurd hb.2 (ha s hb.1)⟩
  · rw [hother b hba]

variable (hcard : Fintype.card A < 4294967296) (workers : Nat) (calloc : Option A)

include hcard in
theorem exec_holding {a : A} {k : Key} {c : Prog A α} (hc : c.Holding True (some a)) (h : Sound t)
    (hk : ∀ s, t.record a = some s → s.key = k) :
    match c.onRecord (t.record a) with
    | .error e => c.exec workers calloc t = .error e
    | .ok (st, v) => ∃ t', c.exec workers calloc t = .ok (t', v) ∧ Sound t' ∧ t'.record a = st ∧
        (∀ s, st = some s → s.key = k) ∧ ∀ b, b ≠ a → t'.record b = t.record b := by
  induction hc generalizing t with
  | done v => exact ⟨t, rfl, h, rfl, hk, fun _ _ => rfl⟩
  | fault e => rfl
  | read ha hnext ih =>
    cases ha
    cases hr : t.record a with
    | none => simp [Prog.exec, Table.load, Table.record_eq_none.1 hr, Prog.onRecord]
    | some s =>
      have := ih s h hk
      obtain ⟨n, hn, rfl⟩ := Table.record_eq_some.1 hr
      rw [hr] at this
      simpa only [Prog.exec, Table.load, hn, ok_bind, Prog.onRecord] using this
  | @modify _ f next ha hf hnext ih =>
    cases ha
    cases hr : t.record a with
    | none => simp [Prog.exec, Table.modify, Table.load, Table.record_eq_none.1 hr, Prog.onRecord]
    | some s =>
      obtain ⟨t₁, ht₁, h₁, hself, hother⟩ := h.modify hr hf
      have hk₁ : ∀ s', t₁.record a = some s' → s'.key = k := by
        intro s' hs'
        rw [hself, Option.some.injEq] at hs'
        rw [← hs', (hf s).1, hk s hr]
      have := ih h₁ hk₁
      rw [hself] at this
      simp only [Prog.exec, ht₁, ok_bind, Prog.onRecord]
      split at this
      · exact this
      · obtain ⟨t', ht', h', hrec, hkey, hoth⟩ := this
        exact ⟨t', ht', h', hrec, hkey, fun b hb => (hoth b hb).trans (hother b hb)⟩
  | clearsession _ ha v =>
    cases ha
    cases hr : t.record a with
    | none =>
      simp [Prog.exec, Opennop.clearsession, Table.load, Table.record_eq_none.1 hr, Prog.onRecord]
    | some s =>
      obtain ⟨t₁, ht₁, h₁, hself, hother⟩ := h.clearsession hcard hr
      exact ⟨t₁, by rw [Prog.exec, ht₁]; rfl, h₁, hself, (by rintro _ ⟨⟩), hother⟩

theorem exec_none {k : Key} {c : Prog A α} (hc : c.Holding True none) (h : Sound t) :
    Outcome t k (c.onRecord (t.sessionAt k)) (c.exec workers calloc t) := by
  cases hc with
  | done v => exact .ok v h fun _ _ => rfl
  | fault e => exact .fault e
  | read ha _ => cases ha
  | modify ha _ _ => cases ha
  | clearsession _ ha _ => cases ha

include hcard in
/-- The session at `a` is the one of `k`: what `exec_holding` says about the connections. -/
theorem exec_held {a : A} {k : Key} {s : Session} {c : Prog A α} (hc : c.Holding True (some a))
    (h : Sound t) (hs : t.record a = some s) (hk : s.key = k) :
    Outcome t k (c.onRecord (some s)) (c.exec workers calloc t) := by
  have hkey : ∀ s', t.record a = some s' → s'.key = k := by
    intro s' hs'
    rw [hs, Option.some.injEq] at hs'
    rw [← hs', hk]
  have := exec_holding hcard workers calloc hc h hkey
  rw [hs] at this
  cases hrun : c.onRecord (some s) with
  | error e =>
    rw [hrun] at this
    rw [this]
    exact .fault e
  | ok r =>
    rw [hrun] at this
    obtain ⟨t', ht', h', hrec, hkey', hother⟩ := this
    rw [ht']
    refine .ok_of_eq r.2 h' (h'.sessionAt_of_record hrec hkey' ?_) fun k' hk' => ?_
    · intro b s' hb hs' hks
      rw [hother b hb] at hs'
      exact hb (h.unique hs' hs (by rw [hks, hk]))
    · refine h.sessionAt_congr h' hother (fun s' hs' => ?_) fun s' hs' => ?_
      · rw [hkey s' hs']
        exact hk'.symm
      · rw [hkey' s' (by rw [← hrec, hs'])]
        exact hk'.symm

include hcard in
/-- **A program about one connection** does to the table what it does to the record of that
connection. -/
theorem exec_on (h : Sound t) {k : Key} {c : Prog A α} (hc : c.About k)
    (hfree : ∀ a, calloc = some a → t.heap a = none) :
    Outcome t k
      (c.on (calloc.map fun a => (a, newSession k (pickQueue workers t.sessions))) (t.entry k))
      (c.exec workers calloc t) := by
  cases hc with
  | @getsession next hsome hnone =>
    simp only [Prog.exec, h.getsession_eq k, ok_bind, Prog.on]
    cases he : t.entry k with
    | some e =>
      obtain ⟨hs, hk⟩ := h.entry_eq_some.1 he
      exact exec_held hcard workers calloc (hsome e.1) h hs hk
    | none =>
      have hat : t.sessionAt k = none := by rw [Table.sessionAt, he]; rfl
      have hmissing : ∀ b s, t.record b = some s → s.key ≠ k := fun b s hb hs => by
        rw [h.entry_eq_some.2 ⟨hb, hs⟩] at he
        cases he
      simp only [Option.map_none]
      generalize next none = c at hnone ⊢
      cases hnone with
      | @insertsession next' hnext =>
        cases calloc with
        | none =>
          have := exec_none (k := k) workers none (hnext none) h
          rw [hat] at this
          simpa only [Prog.exec, Opennop.insertsession, ok_bind, Option.map_none,
            Prog.onMissing] using this
        | some a =>
          have ha := hfree a rfl
          obtain ⟨t₁, ht₁, h₁, hself, hother⟩ := h.insertsession hcard ha hmissing workers
          have := exec_held hcard workers (some a) (hnext (some a)) h₁ hself rfl
          simp only [Prog.exec, ht₁, ok_bind, Option.map_some, Prog.onMissing]
          generalize (next' (some a)).onRecord _ = x, (next' (some a)).exec _ _ _ = y at this ⊢
          cases this with
          | fault e => exact .fault e
          | ok v h' hoth =>
            refine .ok v h' fun k' hk' => (hoth k' hk').trans ?_
            refine h.sessionAt_congr h₁ hother (fun s hs => ?_) fun s hs => ?_
            · rw [Table.record_eq_none.2 ha] at hs
              cases hs
            · rw [hself, Option.some.injEq] at hs
              rw [← hs]
              exact hk'.symm
      | holding hc =>
        have := exec_none (k := k) workers calloc hc h
        rwa [hat, ← hc.onMissing_eq] at this
  | holding hc =>
    rw [hc.on_eq]
    exact exec_none workers calloc hc h

end Programs

end Sound

end Opennop
