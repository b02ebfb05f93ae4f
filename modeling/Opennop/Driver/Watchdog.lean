import Opennop.Driver.Monitor

/-!
# The health agent and the driver (`opennopd/subsystems/healthagent.c`, `opennopd/signals.c`,
`opennopdrv/module.c`)

The health agent of the daemon sends a heartbeat every five seconds, and the driver looks every
fifteen seconds when it has heard the last UP. Here they run against each other in real time, with
packets coming in at any moment. The timer of the driver never runs early and at most `δ` seconds
late, the agent oversleeps by at most `η`. Time is in seconds, as the driver reads it. The service
ends with a signal, when the fetcher cannot receive any more, or with the process.
-/

namespace Opennop

/-- `servicestate` -/
inductive ServiceState where
  | stopped
  | stopping
  | running
  deriving DecidableEq, Repr

/-- `STOPPED`, `STOPPING` and `RUNNING` -/
def ServiceState.toInt : ServiceState → Int
  | stopped => -1
  | stopping => 0
  | running => 1

/-- The signals that the daemon handles. -/
inductive Signal where
  | sighup
  | sigterm
  | sigint
  | sigquit
  deriving DecidableEq, Repr

/-- `signal_handler`, as far as it changes `servicestate` -/
def signalHandler (sig : Signal) (servicestate : ServiceState) : ServiceState :=
  match sig with
  | .sigterm =>
    match servicestate with
    | .running => .stopping
    | .stopping => .stopped
    | .stopped => .stopped
  | .sighup | .sigint | .sigquit => servicestate

/-- The message of `send_hb` -/
def sendHb (servicestate : ServiceState) : Option GenlInfo :=
  some ⟨some (some (if servicestate.toInt ≥ ServiceState.running.toInt then "UP" else "DOWN"))⟩

/-- `healthtimer` -/
def healthtimer : Int := 5

theorem heard_sendHb (servicestate : ServiceState) :
    heard (sendHb servicestate) = some (if servicestate = .running then .up else .down) := by
  cases servicestate <;> decide

theorem signalHandler_ne_running {sig : Signal} {servicestate : ServiceState}
    (h : servicestate ≠ .running) : signalHandler sig servicestate ≠ .running := by
  cases sig <;> cases servicestate <;> first | exact absurd rfl h | exact nofun

structure Watchdog where
  /-- The driver, and what it was told. -/
  monitored : Monitored
  /-- `daemonmonitor.expires` -/
  expires : Int
  servicestate : ServiceState
  /-- When `sleep` returns in the health agent; there is none once its loop has ended. -/
  wakes : Option Int
  /-- When the daemon stopped to run. -/
  ended : Option Int

inductive WatchdogEvent where
  /-- `daemonmonitor_function` -/
  | tick (now : Int)
  /-- One pass of the loop of `healthagent_function`. -/
  | heartbeat (now : Int)
  | signal (now : Int) (sig : Signal)
  /-- `recv` has failed in `fetcher_function`. -/
  | fail (now : Int)
  /-- The process is killed. -/
  | die (now : Int)
  /-- `queue_function` for a packet. -/
  | packet (now : Int) (skb : Option Skb)

def WatchdogEvent.now : WatchdogEvent → Int
  | .tick now => now
  | .heartbeat now => now
  | .signal now _ => now
  | .fail now => now
  | .die now => now
  | .packet now _ => now

namespace Watchdog

def advance (s : Watchdog) (now : Int) : Watchdog :=
  { s with monitored := { s.monitored with clock := now } }

def step (s : Watchdog) : WatchdogEvent → Watchdog
  | .tick now =>
    { s with
      monitored := s.monitored.step (.tick now)
      -- `mod_timer`
      expires := now + s.monitored.driver.hbintervals * hbInterval }
  | .heartbeat now =>
    { s with
      monitored := s.monitored.step (.hb now (sendHb s.servicestate))
      wakes :=
        if s.servicestate.toInt ≥ ServiceState.stopping.toInt then some
          (now + healthtimer) else none }
  | .signal now sig =>
    { s.advance now with
      servicestate := signalHandler sig s.servicestate
      ended := s.ended.or (if signalHandler sig s.servicestate = .running then none else some now) }
  | .fail now => { s.advance now with servicestate := .stopping, ended := s.ended.or (some now) }
  | .die now => { s.advance now with wakes := none, ended := s.ended.or (some now) }
  | .packet now _ => s.advance now

/-- The driver is loaded and the daemon started; its first heartbeat is due at the time `w`. -/
def start (t₀ w : Int) : Watchdog := ⟨.start t₀, t₀ + 15, .running, some w, none⟩

/-- The clock does not go back, the timer is not early and not more than `δ` seconds late, and the
agent wakes not more than `η` seconds late, if its loop has not ended. -/
structure Timely (δ η : Int) (s : Watchdog) (e : WatchdogEvent) : Prop where
  clock : s.monitored.clock ≤ e.now
  timer : e.now ≤ s.expires + δ
  agent : ∀ w ∈ s.wakes, e.now ≤ w + η
  due : ∀ now, e = .tick now → s.expires ≤ now
  awake : ∀ now, e = .heartbeat now → s.wakes ≠ none

/-- While the daemon runs the driver queues from the first heartbeat on, and before that it does
not; and from 30 seconds after the daemon has stopped to run, and the delay of the timer, it does
not. -/
structure Watched (δ : Int) (s : Watchdog) : Prop where
  silent : s.monitored.lastUp = none → ∀ skb, queueFunction s.monitored.driver skb = .accept
  running : s.ended = none → s.monitored.lastUp ≠ none → s.monitored.driver.daemonstate = .up
  ended : ∀ t, s.ended = some t → t + 30 + δ ≤ s.monitored.clock →
    ∀ skb, queueFunction s.monitored.driver skb = .accept

structure Inv (δ : Int) (s : Watchdog) : Prop where
  tracks : s.monitored.Tracks
  /-- The timer was set when the driver looked last. -/
  set : s.expires ≤ s.monitored.clock + 15
  waits : s.monitored.clock ≤ s.expires + δ
  heard : ∀ u, s.monitored.lastUp = some u → u ≤ s.monitored.clock
  /-- The driver looks again before the last UP is 30 seconds old. -/
  up : s.monitored.driver.daemonstate = .up → ∀ u, s.monitored.lastUp = some u → s.expires < u + 30
  alive : s.ended = none → s.servicestate = .running ∧
    ∀ u, s.monitored.lastUp = some u → s.monitored.driver.daemonstate = .up ∧ s.wakes = some (u + 5)
  ended : ∀ t, s.ended = some t → (s.servicestate ≠ .running ∨ s.wakes = none) ∧
    ∀ u, s.monitored.lastUp = some u → u ≤ t

variable {δ η : Int} {s : Watchdog}

theorem Inv.watched (h : s.Inv δ) : s.Watched δ where
  silent hnone := queueFunction_down (by
    cases hd : s.monitored.driver.daemonstate with
    | down => rfl
    | up => exact absurd hnone (h.tracks.up hd))
  running hended hheard := by
    obtain ⟨u, hu⟩ := Option.ne_none_iff_exists'.1 hheard
    exact ((h.alive hended).2 u hu).1
  ended t ht hlate := queueFunction_down (by
    cases hd : s.monitored.driver.daemonstate with
    | down => rfl
    | up =>
      obtain ⟨u, hu⟩ := Option.ne_none_iff_exists'.1 (h.tracks.up hd)
      have hlook := h.up hd u hu
      have hbefore := (h.ended t ht).2 u hu
      have hwaits := h.waits
      omega)

theorem inv_start (hδ : 0 ≤ δ) {t₀ w : Int} (h₀ : 15 < t₀) : (start t₀ w).Inv δ where
  tracks := Monitored.Tracks.start h₀
  set := Int.le_refl _
  waits := by
    change t₀ ≤ t₀ + 15 + δ
    omega
  heard := nofun
  up := nofun
  alive _ := ⟨rfl, nofun⟩
  ended := nofun

theorem Inv.advance (h : s.Inv δ) {now : Int} (hclock : s.monitored.clock ≤ now)
    (htimer : now ≤ s.expires + δ) :
    (s.advance now).Inv δ where
  tracks :=
    ⟨Int.lt_of_lt_of_le h.tracks.clock hclock, h.tracks.hbintervals, h.tracks.lasthb, h.tracks.up,
    h.tracks.silent⟩
  set := Int.le_trans h.set (Int.add_le_add_right hclock 15)
  waits := htimer
  heard u hu := Int.le_trans (h.heard u hu) hclock
  up := h.up
  alive := h.alive
  ended := h.ended

theorem Inv.tick (h : s.Inv δ) (hδ : 0 ≤ δ) (hη : η < 10) {now : Int}
    (ht : s.Timely δ η (.tick now)) : (s.step (.tick now)).Inv δ := by
  have hclock : s.monitored.clock ≤ now := ht.clock
  have hspan : s.monitored.driver.hbintervals * hbInterval = 15 := by
    rw [h.tracks.hbintervals]
    rfl
  have hup := h.tracks.daemonmonitorFunction_up hclock
  refine ⟨h.tracks.tick hclock, ?_, ?_, fun u hu => Int.le_trans (h.heard u hu) hclock,
    ?_, ?_, h.ended⟩
  · change now + s.monitored.driver.hbintervals * hbInterval ≤ now + 15
    omega
  · change now ≤ now + s.monitored.driver.hbintervals * hbInterval + δ
    omega
  · intro hd u hu
    obtain ⟨u', hu', hyoung⟩ := hup.1 hd
    obtain rfl : u = u' := Option.some.inj (hu.symm.trans hu')
    change now + s.monitored.driver.hbintervals * hbInterval < u + 30
    omega
  · intro hended
    obtain ⟨hrun, hheard⟩ := h.alive hended
    refine ⟨hrun, fun u hu => ?_⟩
    obtain ⟨-, hwakes⟩ := hheard u hu
    have hawake : now ≤ u + 5 + η := ht.agent (u + 5) hwakes
    exact ⟨hup.2 ⟨u, hu, by omega⟩, hwakes⟩

theorem Inv.heartbeat (h : s.Inv δ) {now : Int} (ht : s.Timely δ η (.heartbeat now)) :
    (s.step (.heartbeat now)).Inv δ := by
  have hclock : s.monitored.clock ≤ now := ht.clock
  have hset := h.set
  have htracks := h.tracks.hb hclock (sendHb s.servicestate)
  have hcmd := opennopNlCmdHb_eq now (sendHb s.servicestate) s.monitored.driver
  have htold := heard_sendHb s.servicestate
  by_cases hrun : s.servicestate = .running
  · rw [if_pos hrun] at htold
    have hlast : (s.step (.heartbeat now)).monitored.lastUp = some now := if_pos htold
    have hstate : (s.step (.heartbeat now)).monitored.driver.daemonstate = .up := by
      change (opennopNlCmdHb now (sendHb s.servicestate) s.monitored.driver).daemonstate = .up
      rw [hcmd, htold]
    have hnow : ∀ u, (s.step (.heartbeat now)).monitored.lastUp = some u → u = now :=
      fun u hu => (Option.some.inj (hlast.symm.trans hu)).symm
    refine ⟨htracks, ?_, ht.timer, fun u hu => Int.le_of_eq (hnow u hu),
      fun _ u hu => ?_, fun _ => ?_, fun t hended => ?_⟩
    · change s.expires ≤ now + 15
      omega
    · rw [hnow u hu]
      change s.expires < now + 30
      omega
    · refine ⟨hrun, fun u hu => ⟨hstate, ?_⟩⟩
      rw [hnow u hu]
      change (if s.servicestate.toInt ≥ ServiceState.stopping.toInt then _ else _) = _
      rw [hrun, if_pos (by decide)]
      rfl
    · -- an agent that has ended does not wake, and a daemon that was told to stop is not running
      rcases (h.ended t hended).1 with hnot | hnone
      · exact absurd hrun hnot
      · exact absurd hnone (ht.awake now rfl)
  · rw [if_neg hrun] at htold
    have hlast : (s.step (.heartbeat now)).monitored.lastUp = s.monitored.lastUp :=
      if_neg (by rw [htold]; exact nofun)
    have hstate : (s.step (.heartbeat now)).monitored.driver.daemonstate = .down := by
      change (opennopNlCmdHb now (sendHb s.servicestate) s.monitored.driver).daemonstate = .down
      rw [hcmd, htold]
    refine ⟨htracks, ?_, ht.timer, fun u hu => ?_, fun hup => ?_, fun hended => ?_,
      fun t hended => ?_⟩
    · change s.expires ≤ now + 15
      omega
    · rw [hlast] at hu
      exact Int.le_trans (h.heard u hu) hclock
    · cases hstate.symm.trans hup
    · exact absurd (h.alive hended).1 hrun
    · refine ⟨.inl hrun, fun u hu => ?_⟩
      rw [hlast] at hu
      exact (h.ended t hended).2 u hu

theorem Inv.stop (h : s.Inv δ) {servicestate : ServiceState} {wakes : Option Int}
    (hstop : servicestate ≠ .running ∨ wakes = none) :
    Inv δ { s with servicestate, wakes, ended := s.ended.or (some s.monitored.clock) } where
  tracks := h.tracks
  set := h.set
  waits := h.waits
  heard := h.heard
  up := h.up
  alive hended := by
    dsimp only at hended
    cases hs : s.ended with
    | none =>
      rw [hs] at hended
      cases hended
    | some t =>
      rw [hs] at hended
      cases hended
  ended t ht := by
    refine ⟨hstop, fun u hu => ?_⟩
    dsimp only at ht
    cases hs : s.ended with
    | none =>
      rw [hs] at ht
      cases ht
      exact h.heard u hu
    | some t' =>
      rw [hs] at ht
      cases ht
      exact (h.ended t hs).2 u hu

theorem Inv.signal (h : s.Inv δ) {now : Int} {sig : Signal} (ht : s.Timely δ η (.signal now sig)) :
    (s.step (.signal now sig)).Inv δ := by
  have hadv := h.advance ht.clock ht.timer
  by_cases hrun : signalHandler sig s.servicestate = .running
  · -- the signal is none that stops the daemon
    have hsame : s.servicestate = .running := by
      by_contra hnot
      exact signalHandler_ne_running hnot hrun
    have hstep : s.step (.signal now sig) = s.advance now := by
      unfold Watchdog.step
      dsimp only
      rw [hrun, if_pos rfl, Option.or_none, ← hsame]
      rfl
    rw [hstep]
    exact hadv
  · have hstep : s.step (.signal now sig) =
        { s.advance now with
          servicestate := signalHandler sig s.servicestate
          wakes := s.wakes
          ended := s.ended.or (some now) } := by
      unfold Watchdog.step
      dsimp only
      rw [if_neg hrun]
      rfl
    rw [hstep]
    exact hadv.stop (.inl hrun)

theorem Inv.step (h : s.Inv δ) (hδ : 0 ≤ δ) (hη : η < 10) {e : WatchdogEvent}
    (ht : s.Timely δ η e) :
    (s.step e).Inv δ := by
  cases e with
  | tick now => exact h.tick hδ hη ht
  | heartbeat now => exact h.heartbeat ht
  | signal now sig => exact h.signal ht
  | fail now => exact (h.advance ht.clock ht.timer).stop (.inl nofun)
  | die now => exact (h.advance ht.clock ht.timer).stop (.inr rfl)
  | packet now skb => exact h.advance ht.clock ht.timer

/-- **The driver queues exactly to a daemon that runs, with a bounded delay.** In every run in which
the timer is at most `δ` seconds late and the health agent less than 10: nothing is queued before
the first heartbeat; from then on, while the daemon runs, its state in the driver is UP without a
break; and when it has died, was told to stop or cannot receive packets, nothing is queued any more
after 30 seconds and the delay of the timer. -/
theorem watched_always (hδ : 0 ≤ δ) (hη : η < 10) {t₀ w : Int} (h₀ : 15 < t₀)
    {l : List WatchdogEvent} (hl : Trace.Along step (Timely δ η) (start t₀ w) l) :
    Trace.Always step (Watched δ) (start t₀ w) l :=
  (Trace.Always.of_step (fun _ _ hs ht => hs.step hδ hη ht) (inv_start hδ h₀) hl).mono fun _ hs =>
    hs.watched

def killed : List WatchdogEvent :=
  [.heartbeat 105, .die 107, .tick 115, .tick 130,
    .packet 138 (some ⟨packetHost, ethPIp, ipprotoTcp⟩)]

/-- Eight seconds after its death a packet is still queued, 31 seconds after it no more. -/
theorem watched_always_killed :
    queueFunction (Trace.run step (start 100 105) (killed.take 3)).monitored.driver
        (some ⟨packetHost, ethPIp, ipprotoTcp⟩) = .queue ∧
      queueFunction (Trace.run step (start 100 105) killed).monitored.driver
        (some ⟨packetHost, ethPIp, ipprotoTcp⟩) = .accept := by
  have htimely : Trace.Along step (Timely 1 1) (start 100 105) killed := by
    refine ⟨⟨by decide, by decide, ?_, nofun, ?_⟩, ⟨by decide, by decide, ?_, nofun, nofun⟩,
      ⟨by decide, by decide, nofun, ?_, nofun⟩, ⟨by decide, by decide, nofun, ?_, nofun⟩,
      ⟨by decide, by decide, nofun, nofun, nofun⟩, trivial⟩
    · rintro w ⟨⟩
      decide
    · rintro now ⟨⟩
      decide
    · rintro w ⟨⟩
      decide
    · rintro now ⟨⟩
      decide
    · rintro now ⟨⟩
      decide
  have hwatched := (watched_always (by decide) (by decide) (by decide) htimely).last
  exact ⟨by decide, hwatched.ended 107 (by decide) (by decide) _⟩

end Watchdog

end Opennop
