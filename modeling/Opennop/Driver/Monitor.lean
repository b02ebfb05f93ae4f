import Mathlib.Order.Basic
import Opennop.Lib.Trace
import Opennop.Packet.Header

/-!
# The state of the daemon in the driver (`opennopdrv/module.c`, `opennopdrv/opennop_netlink.h`)

The driver queues TCP packets to the daemon while `daemonstate` is UP. Two handlers write that
variable: the heartbeats the daemon sends say UP or DOWN, and a timer sets it from the age of the
last UP alone. The timer can therefore take back a DOWN. `Revives` is the condition for that, and a
run is honest throughout exactly when no tick meets it.
-/

namespace Opennop

/-- `daemonstate` -/
inductive DaemonState where
  | down
  | up
  deriving DecidableEq, Repr

/-- `HBINTERVAL` -/
def hbInterval : Int := 5

/-- The variables of the driver. Of `tv_lasthb` only the seconds are read. -/
structure Driver where
  daemonstate : DaemonState := .down
  hbintervals : Int := 3
  tvLasthb : Int := 0
  deriving DecidableEq, Repr

/-- `struct genl_info`: the attribute `OPENNOP_A_MSG` if there is one, with its data. -/
structure GenlInfo where
  msg : Option (Option String)
  deriving DecidableEq, Repr

/-- `opennop_nl_cmd_hb` at the time `now` -/
def opennopNlCmdHb (now : Int) (info : Option GenlInfo) (d : Driver) : Driver :=
  match info with
  | none => d
  | some info =>
    match info.msg with
    | none => d
    | some none => d
    | some (some mydata) =>
      if mydata = "UP" then { d with tvLasthb := now, daemonstate := .up }
      else if mydata = "DOWN" then { d with daemonstate := .down }
      else d

/-- `daemonmonitor_function` at the time `now` -/
def daemonmonitorFunction (now : Int) (d : Driver) : Driver :=
  let timespan := d.hbintervals * hbInterval
  if now - timespan ≥ d.tvLasthb then { d with daemonstate := .down }
  else { d with daemonstate := .up }

/-- What `queue_function` reads of a packet. -/
structure Skb where
  pktType : Nat
  protocol : Nat
  ipProtocol : UInt8
  deriving DecidableEq, Repr

/-- `PACKET_HOST` -/
def packetHost : Nat := 0

/-- `ETH_P_IP` -/
def ethPIp : Nat := 0x0800

/-- What netfilter is told to do with a packet. -/
inductive NfVerdict where
  | accept
  | queue
  deriving DecidableEq, Repr

/-- `queue_function` -/
def queueFunction (d : Driver) (skb : Option Skb) : NfVerdict :=
  match skb with
  | none => .accept
  | some skb =>
    if skb.pktType = packetHost ∧ skb.protocol = ethPIp then
      if skb.ipProtocol = ipprotoTcp then
        if d.daemonstate = .up then .queue else .accept
      else .accept
    else .accept

/-- While the daemon is down every packet is accepted. -/
theorem queueFunction_down {d : Driver} (h : d.daemonstate = .down) (skb : Option Skb) :
    queueFunction d skb = .accept := by
  cases skb with
  | none => rfl
  | some skb => simp [queueFunction, h]

/-! ## Runs -/

/-- The heartbeat in a message. -/
def heard (info : Option GenlInfo) : Option DaemonState :=
  if info = some ⟨some (some "UP")⟩ then some .up
  else if info = some ⟨some (some "DOWN")⟩ then some .down
  else none

theorem opennopNlCmdHb_eq (now : Int) (info : Option GenlInfo) (d : Driver) :
    opennopNlCmdHb now info d =
      match heard info with
      | some .up => { d with tvLasthb := now, daemonstate := .up }
      | some .down => { d with daemonstate := .down }
      | none => d := by
  unfold opennopNlCmdHb heard
  rcases info with _ | ⟨_ | _ | mydata⟩
  · rfl
  · rfl
  · rfl
  · by_cases hup : mydata = "UP"
    · simp [hup]
    · by_cases hdown : mydata = "DOWN"
      · simp [hdown]
      · simp [hup, hdown]

inductive DriverEvent where
  | hb (now : Int) (info : Option GenlInfo)
  | tick (now : Int)

def DriverEvent.now : DriverEvent → Int
  | .hb now _ => now
  | .tick now => now

/-- The driver with what it has been told: the time, the most recent heartbeat, and when the last UP
came. -/
structure Monitored where
  driver : Driver
  clock : Int
  last : Option DaemonState
  lastUp : Option Int

namespace Monitored

def start (t₀ : Int) : Monitored := ⟨{}, t₀, none, none⟩

def step (s : Monitored) : DriverEvent → Monitored
  | .hb now info =>
    { driver := opennopNlCmdHb now info s.driver
      clock := now
      last := (heard info).or s.last
      lastUp := if heard info = some .up then some now else s.lastUp }
  | .tick now => { s with driver := daemonmonitorFunction now s.driver, clock := now }

def Allowed (s : Monitored) (e : DriverEvent) : Prop := s.clock ≤ e.now

instance (s : Monitored) (e : DriverEvent) : Decidable (s.Allowed e) := Int.decLe _ _

/-- An UP state is what the daemon said last, and after a DOWN nothing is queued. -/
structure Honest (s : Monitored) : Prop where
  up : s.driver.daemonstate = .up → s.last = some .up
  down : s.last = some .down → ∀ skb, queueFunction s.driver skb = .accept

/-- The timer runs after a DOWN and less than 15 seconds after the last UP. -/
def Revives (s : Monitored) : DriverEvent → Prop
  | .tick now => s.last = some .down ∧ ∃ t, s.lastUp = some t ∧ now < t + 15
  | .hb _ _ => False

/-- What the variables of the driver say about the events so far. -/
structure Tracks (s : Monitored) : Prop where
  clock : 15 < s.clock
  hbintervals : s.driver.hbintervals = 3
  lasthb : s.driver.tvLasthb = s.lastUp.getD 0
  up : s.driver.daemonstate = .up → s.lastUp ≠ none
  silent : s.lastUp ≠ none → s.last ≠ none

variable {s : Monitored}

/-- The timer finds the daemon up exactly in the 15 seconds after an UP. -/
theorem Tracks.daemonmonitorFunction_up (h : s.Tracks) {now : Int} (hnow : s.clock ≤ now) :
    (daemonmonitorFunction now s.driver).daemonstate = .up ↔
      ∃ t, s.lastUp = some t ∧ now < t + 15 := by
  have hspan : s.driver.hbintervals * hbInterval = 15 := by
    rw [h.hbintervals]
    rfl
  have hclock := h.clock
  unfold daemonmonitorFunction
  dsimp only
  rw [hspan, h.lasthb]
  cases hup : s.lastUp with
  | none =>
    rw [if_pos (by simp only [Option.getD_none]; omega)]
    simp
  | some t =>
    rw [Option.getD_some]
    by_cases hlt : now < t + 15
    · rw [if_neg (by omega)]
      simp [hlt]
    · rw [if_pos (by omega)]
      simp [hlt]

theorem daemonmonitorFunction_rest (now : Int) (d : Driver) :
    (daemonmonitorFunction now d).hbintervals = d.hbintervals ∧
      (daemonmonitorFunction now d).tvLasthb = d.tvLasthb := by
  unfold daemonmonitorFunction
  dsimp only
  split
  · exact ⟨rfl, rfl⟩
  · exact ⟨rfl, rfl⟩

theorem Tracks.start {t₀ : Int} (h : 15 < t₀) : (start t₀).Tracks where
  clock := h
  hbintervals := rfl
  lasthb := rfl
  up h := by cases h
  silent h := absurd rfl h

theorem Tracks.hb (h : s.Tracks) {now : Int} (hnow : s.clock ≤ now) (info : Option GenlInfo) :
    (s.step (.hb now info)).Tracks := by
  have hclock : 15 < now := Int.lt_of_lt_of_le h.clock hnow
  have hcmd := opennopNlCmdHb_eq now info s.driver
  unfold step
  dsimp only
  rw [hcmd]
  cases heard info with
  | none => exact ⟨hclock, h.hbintervals, h.lasthb, h.up, h.silent⟩
  | some x =>
    cases x with
    | up => exact ⟨hclock, h.hbintervals, rfl, fun _ => by simp, fun _ => by simp⟩
    | down =>
      refine ⟨hclock, h.hbintervals, h.lasthb, fun hup => ?_, fun _ => by simp⟩
      cases hup

theorem Tracks.tick (h : s.Tracks) {now : Int} (hnow : s.clock ≤ now) :
    (s.step (.tick now)).Tracks := by
  obtain ⟨hintervals, hlasthb⟩ := daemonmonitorFunction_rest now s.driver
  refine ⟨Int.lt_of_lt_of_le h.clock hnow, hintervals.trans h.hbintervals,
    hlasthb.trans h.lasthb, fun hup => ?_, h.silent⟩
  obtain ⟨t, ht, -⟩ := (h.daemonmonitorFunction_up hnow).1 hup
  change s.lastUp ≠ none
  rw [ht]
  exact Option.some_ne_none t

theorem Tracks.step (h : s.Tracks) {e : DriverEvent} (ha : s.Allowed e) : (s.step e).Tracks := by
  cases e with
  | hb now info => exact h.hb ha info
  | tick now => exact h.tick ha

/-- The second part of `Honest` follows from the first. -/
theorem honest_iff : s.Honest ↔ (s.driver.daemonstate = .up → s.last = some .up) := by
  refine ⟨Honest.up, fun hup => ⟨hup, fun hlast skb => queueFunction_down ?_ skb⟩⟩
  cases hd : s.driver.daemonstate with
  | down => rfl
  | up => cases hlast.symm.trans (hup hd)

theorem Honest.hb (h : s.Honest) (now : Int) (info : Option GenlInfo) :
    (s.step (.hb now info)).Honest := by
  have hcmd := opennopNlCmdHb_eq now info s.driver
  rw [honest_iff]
  unfold Monitored.step
  dsimp only
  rw [hcmd]
  cases heard info with
  | none => exact h.up
  | some x =>
    intro hup
    cases x with
    | up => rfl
    | down => cases hup

/-- **A tick keeps the state honest exactly when it does not revive the daemon.** -/
theorem Honest.tick_iff (h : s.Tracks) {now : Int} (hnow : s.clock ≤ now) :
    (s.step (.tick now)).Honest ↔ ¬ s.Revives (.tick now) := by
  have hup := h.daemonmonitorFunction_up hnow
  rw [honest_iff]
  change ((daemonmonitorFunction now s.driver).daemonstate = .up → s.last = some .up) ↔ _
  rw [hup]
  constructor
  · rintro hlast ⟨hdown, hyoung⟩
    cases hdown.symm.trans (hlast hyoung)
  · intro hnot hyoung
    have hheard : s.lastUp ≠ none := by
      obtain ⟨t, ht, -⟩ := hyoung
      rw [ht]
      exact Option.some_ne_none t
    cases hlast : s.last with
    | none => exact absurd hlast (h.silent hheard)
    | some x =>
      cases x with
      | up => rfl
      | down => exact absurd ⟨hlast, hyoung⟩ hnot

theorem Honest.step_iff (hs : s.Honest) (h : s.Tracks) {e : DriverEvent} (ha : s.Allowed e) :
    (s.step e).Honest ↔ ¬ s.Revives e := by
  cases e with
  | hb now info => exact iff_of_true (hs.hb now info) id
  | tick now => exact Honest.tick_iff h ha

/-- **The driver queues to a daemon that said DOWN exactly when the timer revives it.** The state is
UP only after an UP heartbeat; it is what the daemon said last throughout a run exactly when no tick
after a DOWN comes less than 15 seconds after the last UP. -/
theorem honest_always_iff {t₀ : Int} (h₀ : 15 < t₀) (l : List DriverEvent)
    (ha : Trace.Along step Allowed (start t₀) l) :
    Trace.Always step (fun s => s.driver.daemonstate = .up → s.lastUp ≠ none) (start t₀) l ∧
      (Trace.Always step Honest (start t₀) l ↔
        Trace.Along step (fun s e => ¬ s.Revives e) (start t₀) l) := by
  have htracks : Trace.Always step Tracks (start t₀) l :=
    Trace.Always.of_step (fun s e hs ha => hs.step ha) (Tracks.start h₀) ha
  have hstart : (start t₀).Honest := honest_iff.2 fun h => by cases h
  refine ⟨htracks.mono fun s hs => hs.up, ?_⟩
  have hboth := Trace.always_iff_along (Q := fun s => Tracks s ∧ Honest s)
    (fun s e hs ha => (and_iff_right (hs.1.step ha)).trans (hs.2.step_iff hs.1 ha))
    ⟨Tracks.start h₀, hstart⟩ ha
  rw [Trace.always_and] at hboth
  exact (and_iff_right htracks).symm.trans hboth

/-- A daemon that stops two seconds after its last UP, and a timer that runs at the time `t`. -/
def stopping (t : Int) : List DriverEvent :=
  [.hb 101 (some ⟨some (some "UP")⟩), .hb 103 (some ⟨some (some "DOWN")⟩), .tick t]

/-- The timer runs 15 seconds after the last UP. -/
theorem honest_always_iff_stopped : Trace.Always step Honest (start 100) (stopping 116) := by
  refine (honest_always_iff (by decide) (stopping 116) (by decide)).2.2 ⟨id, id, ?_, trivial⟩
  rintro ⟨-, t, ht, hlt⟩
  cases ht
  omega

/-- The timer runs 9 seconds after the last UP: TCP packets are queued to the daemon again. -/
theorem not_honest_revived :
    Trace.Along step Allowed (start 100) (stopping 110) ∧
      (Trace.run step (start 100) (stopping 110)).last = some .down ∧
      queueFunction (Trace.run step (start 100) (stopping 110)).driver
        (some ⟨packetHost, ethPIp, ipprotoTcp⟩) = .queue ∧
      ¬ Trace.Always step Honest (start 100) (stopping 110) := by
  refine ⟨by decide, by decide, by decide, fun h => ?_⟩
  cases h.last.up (by decide)

end Monitored

end Opennop
