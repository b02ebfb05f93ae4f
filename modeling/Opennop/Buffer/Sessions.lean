import Opennop.Buffer.Run
import Opennop.Node.Pointers

/-!
# Sessions that are removed

A processor frees the session of a connection that ends, and so do other threads, while the fetcher
and the other processors may have a pointer to it. `Leaves a` says that a thread makes no call on
the session at `a` any more, unless it is told of it again.

If a session is removed only when all other threads leave it (`Exclusive`), no thread ever makes a
call on a session that is not there (`Pointed`).
-/

namespace Opennop

variable {A B α : Type}

namespace Act

/-- The session that a lookup finds or an insertion makes. -/
def found : (e : Act A B) → e.Result → Option A
  | .call (.getsession _), r | .call (.insertsession _), r => r
  | _, _ => none

def frees : Act A B → Option A
  | .call (.clearsession a) => some a
  | _ => none

theorem eq_of_frees {e : Act A B} {a : A} (h : e.frees = some a) : e = .call (.clearsession a) := by
  unfold frees at h
  split at h
  · cases h
    rfl
  · cases h

theorem pointer_ne {o : Option A} {a : A} (ho : o ≠ some a) {e : Act A B} {r : e.Result}
    (hr : e.found r ≠ some a) : e.pointer o r ≠ some a := by
  cases e with
  | call c =>
    cases c with
    | getsession k => exact hr
    | insertsession k => exact hr
    | clearsession a' => exact nofun
    | _ => exact ho
  | _ => exact ho

end Act

namespace Job

open Opennop.Tree

/-- No call on the session at `a` any more, unless a lookup or an insertion returns it. -/
def Leaves (a : A) (c : Job A B α) : Prop :=
  Avoids (Act.On a) (fun e r => e.found r ≠ some a) (fun _ => True) c

/-- A thread that has no pointer to a session leaves it. -/
theorem leaves_of_follows {ψ : α → Option A → Prop} {o : Option A} {c : Job A B α}
    (h : Follows pointers ψ o c) {a : A} (ho : o ≠ some a) : Leaves a c := by
  induction h with
  | done _ => exact .done trivial
  | act hmay φ' hafter _ ih =>
    refine .act (fun hon => ho (hmay a hon)) fun r hr => ih r ?_
    rw [hafter r]
    exact Act.pointer_ne ho hr

end Job

/-- The thread that takes a step; a session may be removed by none of these. -/
def Event.thread : Event A B → Option Thread
  | .deliver _ _ _ _ => some .fetcher
  | .pass q _ => some (.processor q)
  | .refill => some .memorymanager
  | .act th _ => some th
  | .remove _ => none

namespace World

section Definitions

variable (w : World A B)

def removes : Event A B → Option A
  | .remove a => some a
  | e => (w.nextOf e).bind Act.frees

/-- A session is removed when no other thread is going to use it. -/
def Exclusive (e : Event A B) : Prop :=
  ∀ a ∈ w.removes e, ∀ th, e.thread ≠ some th → (w.job th).Leaves a

/-- Every thread keeps to its pointer, and no thread is going to use a session that is not there. -/
structure Pointed : Prop where
  follows : ∀ th, ∃ o, Tree.Follows pointers (fun _ _ => True) o (w.job th)
  leaves : ∀ a, w.live a = false → ∀ th, (w.job th).Leaves a

end Definitions

variable [DecidableEq A] [DecidableEq B] {w w' : World A B} {th : Thread} {x : Input A B}
  {e : Event A B}

omit [DecidableEq B] in
theorem live_call {c : Call A} {r : c.Result} (h : w.call x c = .ok (w', r)) {a : A}
    (ha : w'.live a = false) :
    w.live a = false ∧ (Act.call c : Act A B).found r ≠ some a ∨
      (Act.call c : Act A B) = .call (.clearsession a) := by
  cases c with
  | getsession k =>
    cases h
    refine .inl ⟨ha, fun hr => ?_⟩
    have := (Option.filter_eq_some_iff.1 hr).2
    rw [ha] at this
    cases this
  | insertsession k =>
    simp only [call] at h
    split at h
    · cases h
      exact .inl ⟨ha, (Option.some_ne_none a).symm⟩
    · next a' _ =>
      cases h
      dsimp only at ha
      -- the new session is there
      have hne : a ≠ a' := by
        rintro rfl
        rw [Function.update_self] at ha
        cases ha
      rw [Function.update_of_ne hne] at ha
      exact .inl ⟨ha, fun hr => hne (Option.some.inj hr).symm⟩
  | read a' | modify a' f =>
    simp only [call] at h
    split at h
    · cases h
      exact .inl ⟨ha, (Option.some_ne_none a).symm⟩
    · cases h
  | clearsession a' =>
    simp only [call] at h
    split at h
    · cases h
      dsimp only at ha
      by_cases heq : a = a'
      · exact .inr (by rw [heq])
      · rw [Function.update_of_ne heq] at ha
        exact .inl ⟨ha, (Option.some_ne_none a).symm⟩
    · cases h

/-- A session that is not there after an action was not there before and is not its result, or the
action has freed it. -/
theorem live_perform {e : Act A B} {r : e.Result} (h : w.perform th x e = .ok (w', r)) {a : A}
    (ha : w'.live a = false) :
    w.live a = false ∧ e.found r ≠ some a ∨ e = .call (.clearsession a) := by
  have heffect := (effect_perform h).live
  cases e with
  | call c => exact live_call h ha
  | _ =>
    have hlive := heffect.resolve_right nofun
    exact .inl ⟨hlive ▸ ha, nofun⟩

theorem job_step_of_ne {th : Thread} (he : e.thread ≠ some th) :
    (w.step e).job th = w.job th := by
  have hne : ∀ {t}, some t ≠ some th → th ≠ t := fun ht heq => ht (congrArg some heq.symm)
  cases e with
  | deliver env id ret p =>
    change (w.deliver env id ret p).job th = _
    unfold deliver
    split
    · exact Function.update_of_ne (hne he) _ _
    · rfl
  | pass q env =>
    change (w.pass q env).job th = _
    unfold pass
    split
    · exact Function.update_of_ne (hne he) _ _
    · rfl
  | refill =>
    change w.refill.job th = _
    unfold refill
    split
    · exact Function.update_of_ne (hne he) _ _
    · rfl
  | act t x =>
    change (w.act t x).job th = _
    cases hjob : w.job t with
    | done u => rw [act_done hjob]
    | act a next =>
      cases hperf : w.perform t x a with
      | error f => rw [act_error hjob hperf]
      | ok res =>
        rw [act_ok hjob hperf]
        exact (Function.update_of_ne (hne he) _ _).trans
          (congrFun (effect_perform hperf).job th)
  | remove a => rfl

namespace Pointed

omit [DecidableEq A] [DecidableEq B] in
/-- A thread with a call on a session finds it there. -/
theorem live (h : w.Pointed) {a : Act A B} {next : a.Result → Job A B Unit}
    (hjob : w.job th = .act a next) {s : A} (hon : a.On s) : w.live s = true := by
  by_contra hlive
  have hleaves := h.leaves s (Bool.eq_false_iff.2 hlive) th
  rw [hjob] at hleaves
  exact hleaves.next.1 hon

omit [DecidableEq A] [DecidableEq B] in
theorem begin (h : w.Pointed) {job : Job A B Unit}
    (hfollows : Tree.Follows pointers (fun _ _ => True) none job)
    (hjob : w'.job = Function.update w.job th job) (hlive : w'.live = w.live) : w'.Pointed := by
  refine ⟨fun t => ?_, fun a ha t => ?_⟩
  · rw [hjob]
    by_cases ht : t = th
    · rw [ht, Function.update_self]
      exact ⟨none, hfollows⟩
    · rw [Function.update_of_ne ht]
      exact h.follows t
  · rw [hjob]
    by_cases ht : t = th
    · rw [ht, Function.update_self]
      exact Job.leaves_of_follows hfollows nofun
    · rw [Function.update_of_ne ht]
      exact h.leaves a (hlive ▸ ha) t

theorem act (h : w.Pointed) (hex : w.Exclusive (.act th x)) : (w.act th x).Pointed := by
  cases hjob : w.job th with
  | done u =>
    rw [act_done hjob]
    exact h
  | act e next =>
    cases hperf : w.perform th x e with
    | error f =>
      rw [act_error hjob hperf]
      exact h
    | ok res =>
      obtain ⟨w', r⟩ := res
      rw [act_ok hjob hperf]
      obtain ⟨o, ho⟩ := h.follows th
      rw [hjob] at ho
      obtain ⟨o', rfl, hnext⟩ := ho.next r
      have hsame := congrFun (effect_perform hperf).job
      refine ⟨fun t => ?_, fun a ha t => ?_⟩
      · dsimp only
        by_cases ht : t = th
        · rw [ht, Function.update_self]
          exact ⟨_, hnext⟩
        · rw [Function.update_of_ne ht, hsame]
          exact h.follows t
      · dsimp only
        by_cases ht : t = th
        · subst ht
          rw [Function.update_self]
          rcases live_perform hperf ha with ⟨hdead, hfound⟩ | rfl
          · have hleaves := h.leaves a hdead t
            rw [hjob] at hleaves
            exact hleaves.next.2 r hfound
          · exact Job.leaves_of_follows hnext nofun
        · rw [Function.update_of_ne ht, hsame]
          rcases live_perform hperf ha with ⟨hdead, -⟩ | rfl
          · exact h.leaves a hdead t
          · refine hex a ?_ t fun heq => ht (Option.some.inj heq).symm
            simp [removes, nextOf, hjob, Tree.head?, Act.frees]

/-- **The step lemma.** -/
theorem step (h : w.Pointed) (hex : w.Exclusive e) : (w.step e).Pointed := by
  cases e with
  | deliver env id ret p =>
    change (w.deliver env id ret p).Pointed
    unfold deliver
    split
    · exact h.begin (Job.follows_fetcherTask (F := False) env id ret p nofun).pointers rfl rfl
    · exact h
  | pass q env =>
    change (w.pass q env).Pointed
    unfold pass
    split
    · exact h.begin (Job.follows_workerTask env q).pointers rfl rfl
    · exact h
  | refill =>
    change w.refill.Pointed
    unfold refill
    split
    · exact h.begin Job.follows_managerPass.pointers rfl rfl
    · exact h
  | act th x => exact h.act hex
  | remove a =>
    refine ⟨h.follows, fun a' ha' th => ?_⟩
    by_cases heq : a' = a
    · subst heq
      exact hex a' rfl th nofun
    · exact h.leaves a' ((Function.update_of_ne heq _ _).symm.trans ha') th

omit [DecidableEq A] [DecidableEq B] in
theorem start (garbage : PacketHead B) (env : Env) :
    (World.start garbage env : World A B).Pointed := by
  have hfollows : ∀ th, Tree.Follows pointers (fun _ _ => True) none
      ((World.start garbage env : World A B).job th) := by
    intro th
    cases th with
    | memorymanager => exact Job.follows_managerStart.pointers
    | _ => exact .done trivial
  exact ⟨fun th => ⟨none, hfollows th⟩, fun a _ th => Job.leaves_of_follows (hfollows th) nofun⟩

end Pointed

end World

end Opennop
