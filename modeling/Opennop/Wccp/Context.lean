import Opennop.Cli.Dispatch
import Opennop.Wccp.Identity

/-!
# The context of a CLI connection after a line that runs no command

`execute_commands` begins with a result that has the mode and no data, and only a handler puts data
into it. So a line that runs no handler keeps the mode and loses the data: in the WCCP mode, the
group. A `server` command that follows finds none, leaves the mode and adds nothing.
-/

namespace Opennop

section Idle

variable {M H : Type} (cli : Cli M H) (mode : Option M)

/-- A line that runs no handler. -/
def Idle (line : List Char) : Prop :=
  ∃ executed, executeCommands cli mode line = .ok executed ∧ executed.calls = []

variable {cli mode} {D W : Type}
  (handle : H → List Token → Option D → W → Exec (CommandResult M D × W))

theorem Idle.clientLine_eq {line : List Char} (h : Idle cli mode line) (data : Option D) (w : W) :
    clientLine cli handle ({ mode, data }, w) line = .ok ({ mode }, w) := by
  obtain ⟨executed, hexecuted, hcalls⟩ := h
  simp [clientLine, runCommands, hexecuted, hcalls, pure, Except.pure, bind, Except.bind]

theorem clientHandler_idle {lines : List (List Char)} (h : ∀ line ∈ lines, Idle cli mode line)
    (data : Option D) (w : W) :
    clientHandler cli handle ({ mode, data }, w) lines =
      .ok ({ mode, data := if lines = [] then data else none }, w) := by
  induction lines generalizing data with
  | nil => rfl
  | cons line lines ih =>
    have hline := (h line List.mem_cons_self).clientLine_eq handle data w
    have hlines := ih (fun l hl => h l (List.mem_cons_of_mem _ hl)) none
    unfold clientHandler at hlines ⊢
    rw [List.foldlM_cons, hline, ok_bind, hlines]
    simp

/-- The context is the same after some idle lines. -/
def KeepsContext (cli : Cli M H)
    (handle : H → List Token → Option D → W → Exec (CommandResult M D × W)) (mode : Option M)
    (data : Option D) (w : W) (lines : List (List Char)) : Prop :=
  ∃ s, clientHandler cli handle ({ mode, data }, w) lines = .ok s ∧ s.1.mode = mode ∧
    s.1.data = data ∧ s.1.finish = false

theorem keepsContext_iff {lines : List (List Char)} (h : ∀ line ∈ lines, Idle cli mode line)
    (data : Option D) (w : W) :
    KeepsContext cli handle mode data w lines ↔ lines = [] ∨ data = none := by
  have hrun := clientHandler_idle handle h data w
  by_cases hlines : lines = []
  · rw [if_pos hlines] at hrun
    exact ⟨fun _ => .inl hlines, fun _ => ⟨_, hrun, rfl, rfl, rfl⟩⟩
  · rw [if_neg hlines] at hrun
    constructor
    · rintro ⟨s, hs, -, hdata, -⟩
      obtain rfl := Except.ok.inj (hrun.symm.trans hs)
      exact .inr hdata.symm
    · intro hempty
      exact ⟨_, hrun, rfl, (hempty.resolve_left hlines).symm, rfl⟩

end Idle

section Server

variable {M H : Type} {cli : Cli M H} {cliWccpMode : M} {inetPton : Token → Option UInt32}
  {st : WccpState} {g : Nat}

/-- The line runs the `server` command with one parameter. -/
def IsServerLine (cli : Cli M H) (handle : H → List Token → Option Nat → WccpState →
    Exec (CommandResult M Nat × WccpState)) (cliWccpMode : M) (inetPton : Token → Option UInt32)
      (line : List Char)
    (ip : Token) : Prop :=
  ∃ handler executed, executeCommands cli (some cliWccpMode) line = .ok executed ∧
    executed.calls = [(handler, [ip])] ∧
    ∀ parameters data st, handle handler parameters data st =
      st.cliWccpServer cliWccpMode inetPton parameters data

variable {handle : H → List Token → Option Nat → WccpState → Exec (CommandResult M Nat × WccpState)}
  {line : List Char} {ip : Token}

theorem IsServerLine.clientLine_eq (h : IsServerLine cli handle cliWccpMode inetPton line ip)
    (data : Option Nat) :
    clientLine cli handle ({ mode := some cliWccpMode, data }, st) line =
      (st.cliWccpServer cliWccpMode inetPton [ip] data).map fun r =>
        ({ mode := r.1.mode, data := r.1.data, finish := r.1.finished }, r.2) := by
  obtain ⟨handler, executed, hexecuted, hcalls, hhandle⟩ := h
  simp only [clientLine, runCommands, hexecuted, ok_bind, hcalls, List.foldlM_cons,
    List.foldlM_nil, hhandle]
  cases st.cliWccpServer cliWccpMode inetPton [ip] data <;> rfl

/-- After some idle lines, `server` does to the group what it would have done at once. -/
def ServerApplies (cli : Cli M H) (handle : H → List Token → Option Nat → WccpState →
    Exec (CommandResult M Nat × WccpState)) (cliWccpMode : M) (inetPton : Token → Option UInt32)
      (st : WccpState)
    (g : Nat) (lines : List (List Char)) (line : List Char) (ip : Token) : Prop :=
  ∃ client result st', clientHandler cli handle ({ mode := some cliWccpMode, data := some g }, st)
    (lines ++ [line]) = .ok (client, st') ∧ st.cliWccpServer cliWccpMode inetPton [ip] (some g) =
      .ok (result, st')

theorem WccpState.Holds.knowsServer_iff {gs : List Nat} {ss ws : Nat → List Nat}
    (h : Holds st gs ss ws) (hg : g ∈ gs) (ip : UInt32) :
    st.KnowsServer g ip ↔ ip ∈ (st.view ss ws g).servers.map WccpServer.ipaddress := by
  unfold WccpState.KnowsServer
  simp only [h.findWccpServer hg, Except.ok.injEq, Holds.map_ipaddress]
  exact exists_find?_key_iff (fun a => (st.heap.server a).ipaddress) ip (ss g)

/-- The command changes nothing exactly when there is nothing to add. -/
theorem WccpState.Reached.cliWccpServer_unchanged_iff (hr : st.Reached inetPton) (cliWccpMode : M)
    (hg : st.Listed g) :
    (∃ result, st.cliWccpServer cliWccpMode inetPton [ip] (some g) = .ok (result, st)) ↔
      ∀ serverIP, inetPton ip = some serverIP → st.KnowsServer g serverIP := by
  obtain ⟨gs, ss, ws, h⟩ := hr.holds
  have hmem := h.listed_iff.1 hg
  constructor
  · rintro ⟨result, hsame⟩ serverIP hpton
    rw [h.knowsServer_iff hmem]
    by_contra hnew
    obtain ⟨st', -, hst', hallocated, -⟩ := h.cliWccpServer_new cliWccpMode hmem hpton hnew
    obtain ⟨-, rfl⟩ := Prod.mk.inj (Except.ok.inj (hsame.symm.trans hst'))
    exact absurd hallocated (by omega)
  · intro hknown
    refine ⟨_, h.cliWccpServer_known cliWccpMode hmem fun parameter serverIP hparameter hpton => ?_⟩
    obtain rfl : ip = parameter := (List.cons.inj hparameter).1
    rw [← h.knowsServer_iff hmem]
    exact hknown serverIP hpton

theorem IsServerLine.clientHandler_eq (h : IsServerLine cli handle cliWccpMode inetPton line ip)
    {lines : List (List Char)} (hidle : ∀ line ∈ lines, Idle cli (some cliWccpMode) line)
    (hlines : lines ≠ []) :
    clientHandler cli handle ({ mode := some cliWccpMode, data := some g }, st) (lines ++ [line]) =
      .ok ({}, st) := by
  have hlost := clientHandler_idle handle hidle (some g) st
  rw [if_neg hlines] at hlost
  unfold clientHandler at hlost ⊢
  rw [List.foldlM_append, hlost, ok_bind, List.foldlM_cons, h.clientLine_eq]
  rfl

theorem IsServerLine.serverApplies_iff (h : IsServerLine cli handle cliWccpMode inetPton line ip)
    {lines : List (List Char)} (hidle : ∀ line ∈ lines, Idle cli (some cliWccpMode) line)
    (hr : st.Reached inetPton)
    (hg : st.Listed g) :
    ServerApplies cli handle cliWccpMode inetPton st g lines line ip ↔
      lines = [] ∨ ∀ serverIP, inetPton ip = some serverIP → st.KnowsServer g serverIP := by
  by_cases hlines : lines = []
  · refine ⟨fun _ => .inl hlines, fun _ => ?_⟩
    obtain ⟨gs, ss, ws, hholds⟩ := hr.holds
    obtain ⟨st', -, hst', -⟩ :=
      hholds.cliWccpServer cliWccpMode (hholds.listed_iff.1 hg) inetPton [ip]
    refine ⟨{ mode := some cliWccpMode, data := some g }, _, st', ?_, hst'⟩
    rw [hlines, List.nil_append, clientHandler, List.foldlM_cons, h.clientLine_eq, hst']
    rfl
  · have hrun : clientHandler cli handle ({ mode := some cliWccpMode, data := some g }, st)
      (lines ++ [line]) = .ok ({}, st) := h.clientHandler_eq hidle hlines
    rw [← hr.cliWccpServer_unchanged_iff cliWccpMode hg]
    constructor
    · rintro ⟨client, result, st', hst', happlied⟩
      obtain ⟨-, rfl⟩ := Prod.mk.inj (Except.ok.inj (hrun.symm.trans hst'))
      exact .inr ⟨result, happlied⟩
    · intro hsame
      obtain ⟨result, happlied⟩ := hsame.resolve_left hlines
      exact ⟨_, result, st, hrun, happlied⟩

end Server

/-- **What idle lines do to the context.** They keep it if there is no data, and in the WCCP mode
`server` still applies to the group only if it has nothing to add. -/
theorem clientHandler_context_iff {M H : Type} (cli : Cli M H) (mode : Option M)
    {lines : List (List Char)} (hidle : ∀ line ∈ lines, Idle cli mode line) :
    (∀ {D W : Type} (handle : H → List Token → Option D → W → Exec (CommandResult M D × W))
    (data : Option D) (w : W), KeepsContext cli handle mode data w lines ↔ lines =
    [] ∨ data = none) ∧
    ∀ (cliWccpMode : M) (handle : H → List Token → Option Nat → WccpState →
      Exec (CommandResult M Nat × WccpState))
      (inetPton : Token → Option UInt32) (st : WccpState) (g : Nat) (line : List Char) (ip : Token),
      mode = some cliWccpMode → st.Reached inetPton → st.Listed g →
      IsServerLine cli handle cliWccpMode inetPton line ip →
      (ServerApplies cli handle cliWccpMode inetPton st g lines line ip ↔
        lines = [] ∨ ∀ serverIP, inetPton ip = some serverIP → st.KnowsServer g serverIP) := by
  refine ⟨fun handle data w => keepsContext_iff handle hidle data w, ?_⟩
  rintro cliWccpMode handle inetPton st g line ip rfl hr hg hserver
  exact hserver.serverApplies_iff hidle hr hg

/-! ### The command `server` -/

open WccpState

inductive WccpCommand where
  | cliWccpServer

def handleWccp :
    WccpCommand → List Token → Option Nat → WccpState → Exec (CommandResult Unit Nat × WccpState)
  | .cliWccpServer, parameters, data, st => st.cliWccpServer () inetPton parameters data

def serverRegistration : Registration WccpCommand := ⟨"server".toList, .cliWccpServer, true⟩

def serverLine : List Char := "server 10.0.0.9".toList

theorem exists_serverCli :
    ∃ cli, registerAll {} [(some (), serverRegistration)] = .ok cli ∧
      (∀ line ∈ [[]], Idle cli (some ()) line) ∧
      IsServerLine cli handleWccp () inetPton serverLine "10.0.0.9".toList := by
  have hcommands : commandsOf (some ()) [(some (), serverRegistration)] =
    [serverRegistration] := rfl
  have hname : tokens serverRegistration.name = ["server".toList] := by decide +kernel
  have hline : tokens serverLine = ["server".toList, "10.0.0.9".toList] := by decide +kernel
  have hu : Unambiguous (commandsOf (some ()) [(some (), serverRegistration)]) := by
    rw [hcommands]
    constructor <;> simp [hname]
  obtain ⟨cli, out, hcli, hout, hserver⟩ := exists_dispatched _ (some ()) hu serverLine
  obtain ⟨cli', out', hcli', hout', hempty⟩ := exists_dispatched _ (some ()) hu []
  obtain rfl := Except.ok.inj (hcli.symm.trans hcli')
  refine ⟨cli, hcli, ?_, ?_⟩
  · intro line hline
    obtain rfl := List.mem_singleton.1 hline
    refine ⟨out', hout', hempty.idle fun c hc => ?_⟩
    rw [hcommands, List.mem_singleton] at hc
    rw [hc, hname]
    decide +kernel
  · refine ⟨.cliWccpServer, out, hout, ?_, fun _ _ _ => rfl⟩
    have hcalls := hserver.run serverRegistration (by simp [hcommands]) (by rw [hname, hline]; simp)
    rw [hcalls, hname, hline]
    rfl

/-- In a group that has the server already, `server` has nothing to add. -/
theorem clientHandler_context_known :
    ∃ cli, registerAll {} [(some (), serverRegistration)] = .ok cli ∧
      ServerApplies cli handleWccp () inetPton groupFiveServer 0 [[]] serverLine
        "10.0.0.9".toList := by
  obtain ⟨cli, hcli, hidle, hserver⟩ := exists_serverCli
  have hpton : inetPton "10.0.0.9".toList = some 0x0900000a := by decide +kernel
  refine ⟨cli, hcli,
    ((clientHandler_context_iff cli (some ()) hidle).2 () handleWccp inetPton
      groupFiveServer 0 serverLine _ rfl reached_groupFiveServer listed_groupFiveServer hserver).2
        (.inr fun serverIP hip => ?_)⟩
  obtain rfl := Option.some.inj (hpton.symm.trans hip)
  exact ⟨0, by decide +kernel⟩

/-- An empty line loses the group, and a new server is not added to it. -/
theorem clientHandler_context_lost :
    ∃ cli, registerAll {} [(some (), serverRegistration)] = .ok cli ∧ Idle cli (some ()) [] ∧
      ¬ KeepsContext cli handleWccp (some ()) (some 0) groupFive [[]] ∧
      groupFive.Reached inetPton ∧ groupFive.Listed 0 ∧
      ¬ ServerApplies cli handleWccp () inetPton groupFive 0 [[]] serverLine "10.0.0.9".toList := by
  obtain ⟨cli, hcli, hidle, hserver⟩ := exists_serverCli
  have hpton : inetPton "10.0.0.9".toList = some 0x0900000a := by decide +kernel
  refine ⟨cli, hcli, hidle [] List.mem_cons_self, ?_, reached_groupFive inetPton,
    listed_groupFive, ?_⟩
  · rw [keepsContext_iff handleWccp hidle]
    simp
  · rw [hserver.serverApplies_iff hidle (reached_groupFive inetPton) listed_groupFive]
    rintro (h | h)
    · exact absurd h (by simp)
    · obtain ⟨a, ha⟩ := h 0x0900000a hpton
      have hnone : groupFive.findWccpServer 0 0x0900000a = .ok none := by decide +kernel
      exact nomatch hnone.symm.trans ha

end Opennop
