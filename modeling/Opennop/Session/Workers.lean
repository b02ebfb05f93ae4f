import Opennop.Session.Refine

/-!
# Workers and their load (`opennopd/opennopd.c`, `opennopd/subsystems/worker.c`)

At its start the daemon creates two workers for each processor. Their number is kept in an `unsigned
char`, so that the product counts modulo 256. `insertsession` then gives each new session to a
worker with the fewest sessions.
-/

namespace Opennop

/-! ## Start-up -/

/-- The number of workers that should run, and the workers whose threads have been created. -/
structure Workers where
  numworkers : UInt8 := 0
  created : List Nat := []

/-- `get_workers` -/
def getWorkers (w : Workers) : Nat := w.numworkers.toNat

/-- `set_workers` -/
def setWorkers (w : Workers) (desirednumworkers : UInt8) : Workers :=
  { w with numworkers := desirednumworkers }

/-- `create_worker` -/
def createWorker (w : Workers) (i : Nat) : Workers := { w with created := w.created ++ [i] }

/-- The part of `main` that starts the workers; `processors` is what `sysconf` reports. -/
def startWorkers (processors : Nat) (w : Workers) : Workers :=
  let w := if getWorkers w = 0 then setWorkers w (UInt8.ofNat (processors * 2)) else w
  (List.range (getWorkers w)).foldl createWorker w

theorem foldl_createWorker (l : List Nat) (w : Workers) :
    l.foldl createWorker w = { w with created := w.created ++ l } := by
  induction l generalizing w with
  | nil => simp
  | cons i l ih => simp [ih, createWorker]

theorem startWorkers_eq (processors : Nat) :
    startWorkers processors {} =
      { numworkers := UInt8.ofNat (processors * 2),
        created := List.range (processors * 2 % 256) } := by
  simp [startWorkers, foldl_createWorker, getWorkers, setWorkers, UInt8.toNat_ofNat']

/-! ## The choice -/

/-- What the candidate is after any part of the loop: one of the workers seen, and none of them has
fewer sessions. -/
theorem pickQueue_spec (sessions : Nat → Nat) (n : Nat) :
    (pickQueue n sessions < n ∨ n = 0 ∧ pickQueue n sessions = 0) ∧
      ∀ i < n, sessions (pickQueue n sessions) ≤ sessions i := by
  induction n with
  | zero => simp [pickQueue]
  | succ n ih =>
    obtain ⟨hlt, hle⟩ := ih
    have hstep : pickQueue (n + 1) sessions =
        if sessions (pickQueue n sessions) > sessions n then n else pickQueue n sessions := by
      simp [pickQueue, List.range_succ]
    rw [hstep]
    split
    · next hgt =>
      refine ⟨.inl (by omega), fun i hi => ?_⟩
      obtain hi | rfl := Nat.lt_succ_iff_lt_or_eq.1 hi
      · exact (hgt.trans_le (hle i hi)).le
      · exact le_rfl
    · next hle' =>
      refine ⟨.inl (by omega), fun i hi => ?_⟩
      obtain hi | rfl := Nat.lt_succ_iff_lt_or_eq.1 hi
      · exact hle i hi
      · exact not_lt.1 hle'

section Assigned

variable {A : Type} [DecidableEq A] {t : Table A} {σ : Store A}

/-- The session that is put at `a` goes to a created worker, and none of these has fewer
sessions. -/
def AssignedTo (w : Workers) (sessions : Nat → Nat) (t' : Table A) (a : A) : Prop :=
  ∃ n, t'.heap a = some n ∧ n.session.queue ∈ w.created ∧
    ∀ i ∈ w.created, sessions n.session.queue ≤ sessions i

/-- With any table and any counters, `insertsession` returns, and the new session goes to a running
worker with the fewest sessions exactly when the number of processors is not a multiple of 128. -/
theorem insertsession_assigned_iff (processors : Nat) (h : Refines t σ) (sessions : Nat → Nat)
    {a : A} (ha : t.heap a = none) (k : Key) :
    ∃ t', insertsession (getWorkers (startWorkers processors {}))
      { t with sessions := sessions } (some a) k = .ok (t', some a) ∧
      (AssignedTo (startWorkers processors {}) sessions t' a ↔ ¬ 128 ∣ processors) := by
  have hworkers : getWorkers (startWorkers processors {}) = processors * 2 % 256 := by
    simp [startWorkers_eq, getWorkers, UInt8.toNat_ofNat']
  obtain ⟨hlt, hle⟩ := pickQueue_spec sessions (processors * 2 % 256)
  have hinsert :=
    Refines.insertsession_eq_of_counters (t := { t with sessions := sessions }) (c := t.sessions)
    h ha (processors * 2 % 256) k
  rw [hworkers, startWorkers_eq]
  refine ⟨_, hinsert, ?_⟩
  simp only [AssignedTo, Table.inserted, if_true, Option.some.injEq, exists_eq_left', newSession,
    List.mem_range]
  constructor
  · rintro ⟨hmem, -⟩ hdvd
    omega
  · intro hdvd
    exact ⟨by omega, hle⟩

/-- With four processors a session goes to the second worker when the first has three sessions. -/
theorem insertsession_second :
    ∃ t', insertsession (getWorkers (startWorkers 4 {}))
        { initializeSessiontable Unit with sessions := fun i => if i = 0 then 3 else 1 } (some ())
        ⟨2, 80, 1, 4000⟩ = .ok (t', some ()) ∧
      AssignedTo (startWorkers 4 {}) (fun i => if i = 0 then 3 else 1) t' () := by
  obtain ⟨t', hins, hassigned⟩ := insertsession_assigned_iff 4 (Refines.init (A := Unit))
    (fun i => if i = 0 then 3 else 1) (a := ()) rfl ⟨2, 80, 1, 4000⟩
  exact ⟨t', hins, hassigned.2 (by decide)⟩

/-- With 128 processors no worker is created, and a session goes to queue 0, which nobody serves. -/
theorem insertsession_unserved :
    (startWorkers 128 {}).created = [] ∧
      ∃ t' n,
        insertsession (getWorkers (startWorkers 128 {})) (initializeSessiontable Unit) (some ())
          ⟨2, 80, 1, 4000⟩ = .ok (t', some ()) ∧
        t'.heap () = some n ∧ n.session.queue = 0 ∧
        ¬ AssignedTo (startWorkers 128 {}) (initializeSessiontable Unit).sessions t' () := by
  have hstart : startWorkers 128 {} = {} := startWorkers_eq 128
  have hinsert := Refines.init.insertsession_eq (A := Unit) (a := ()) rfl 0 ⟨2, 80, 1, 4000⟩
  rw [hstart]
  refine ⟨rfl, _, _, hinsert, rfl, rfl, ?_⟩
  rintro ⟨n, -, hmem, -⟩
  cases hmem

end Assigned

end Opennop
