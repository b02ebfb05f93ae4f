import Opennop.Cli.Commands

/-!
# The context of a CLI connection (`opennopd/subsystems/climanager.c`)

A connection is in a mode, and a mode may have data, such as the service group that is being
configured. Handlers get the data and return the next mode and data; `W` is what they work on.
-/

namespace Opennop

/-- `struct commandresult` -/
structure CommandResult (M D : Type) where
  finished : Bool := false
  mode : Option M := none
  data : Option D := none

/-- The variables of `client_handler`. -/
structure CliClient (M D : Type) where
  mode : Option M := none
  data : Option D := none
  finish : Bool := false

section Context

variable {M H D W : Type} (cli : Cli M H)
  (handle : H → List Token → Option D → W → Exec (CommandResult M D × W))

/-- `execute_commands` with what its handlers do and return. -/
def runCommands (mode : Option M) (data : Option D) (w : W) (commandName : List Char) :
    Exec (CommandResult M D × W) := do
  let executed ← executeCommands cli mode commandName
  executed.calls.foldlM (fun r call => handle call.1 call.2 data r.2) ({ mode }, w)

/-- One pass of the loop of `client_handler`. -/
def clientLine (s : CliClient M D × W) (line : List Char) : Exec (CliClient M D × W) :=
  if s.1.finish then .ok s
  else do
    let (result, w) ← runCommands cli handle s.1.mode s.1.data s.2 line
    return ({ mode := result.mode, data := result.data, finish := result.finished }, w)

/-- `client_handler`, for the lines it receives. -/
def clientHandler (s : CliClient M D × W) (lines : List (List Char)) : Exec (CliClient M D × W) :=
  lines.foldlM (clientLine cli handle) s

end Context

end Opennop
