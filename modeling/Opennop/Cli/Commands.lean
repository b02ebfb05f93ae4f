import Mathlib.Logic.Function.Basic
import Opennop.Lib.Exec

/-!
# Commands of the CLI (`opennopd/subsystems/clicommands.c`)

Commands are kept in a tree: a `struct command` stands for one token, with the commands for the
tokens that may follow it in the list of its `child` head. The heads of the modes are the roots.
Commands are at the addresses that `allocate_command` hands out one after the other. A handler is a
value of a type `H`; running one is recorded with its parameters. Log messages, prompts and the text
of `cli_help` are left out, and with them the `hidden` flag, which only that text depends on.
-/

namespace Opennop

/-! ## Tokens -/

abbrev Token := List Char

/-- `strtok_r` with the delimiter `" "`: the next token, and what is left of the string. -/
def strtokR (s : List Char) : Option Token × List Char :=
  let s := s.dropWhile (· = ' ')
  match s with
  | [] => (none, [])
  | c :: s =>
    let token := (c :: s).takeWhile (· ≠ ' ')
    (some token, ((c :: s).dropWhile (· ≠ ' ')).drop 1)

def tokens (s : List Char) : List Token := (s.splitOnP (· = ' ')).filter (· ≠ [])

/-! ## The tree of commands -/

/-- A `struct command_head` is that of a mode or that of a command. -/
inductive HeadRef (M : Type) where
  | globalmode
  | mode (m : M)
  | child (command : Nat)
  deriving DecidableEq

/-- `struct command_head` -/
structure CommandHead where
  next : Option Nat := none
  prev : Option Nat := none

/-- `struct command` -/
structure Command (H : Type) where
  command : Token := []
  commandHandler : Option H := none
  next : Option Nat := none
  prev : Option Nat := none
  child : CommandHead := {}
  hasparams : Bool := false

/-- The heads of the modes and the commands. -/
structure Cli (M H : Type) where
  globalmode : CommandHead := {}
  modes : M → CommandHead := fun _ => {}
  commands : Nat → Command H := fun _ => {}
  allocated : Nat := 0

section Tree

variable {M H : Type}

namespace Cli

def head (cli : Cli M H) : HeadRef M → CommandHead
  | .globalmode => cli.globalmode
  | .mode m => cli.modes m
  | .child a => (cli.commands a).child

def setCommand (cli : Cli M H) (a : Nat) (c : Command H) : Cli M H :=
  { cli with commands := Function.update cli.commands a c }

def setHead [DecidableEq M] (cli : Cli M H) (r : HeadRef M) (head : CommandHead) : Cli M H :=
  match r with
  | .globalmode => { cli with globalmode := head }
  | .mode m => { cli with modes := Function.update cli.modes m head }
  | .child a => cli.setCommand a { cli.commands a with child := head }

end Cli

/-- The head for the parameter `mode` of the functions below, which is NULL for the global mode. -/
def modeHead : Option M → HeadRef M
  | none => .globalmode
  | some m => .mode m

/-- `allocate_command` -/
def allocateCommand (cli : Cli M H) : Nat × Cli M H :=
  (cli.allocated, { cli.setCommand cli.allocated {} with allocated := cli.allocated + 1 })

/-- One pass of the loop of `find_command`. -/
def findPass (cli : Cli M H) (commandName : Token) :
    Option Nat → Exec (Pass (Option Nat) (Option Nat))
  | none => .ok (.done none)
  | some a =>
    if (cli.commands a).command = commandName then .ok (.done (some a))
    else .ok (.again (cli.commands a).next)

/-- `find_command`. A list without a cycle is left after as many passes as there are commands. -/
def findCommand (cli : Cli M H) (currentnode : HeadRef M) (commandName : Token) :
    Exec (Option Nat) :=
  loop (findPass cli commandName) (cli.allocated + 1) (cli.head currentnode).next

/-! ## Registration -/

/-- Put a command at the end of the list of `currentnode`. -/
def linkCommand [DecidableEq M] (cli : Cli M H) (currentnode : HeadRef M) (a : Nat) :
    Exec (Cli M H) :=
  match (cli.head currentnode).next with
  | none => .ok (cli.setHead currentnode ⟨some a, some a⟩)
  | some first =>
    match (cli.head currentnode).prev with
    | none => .error .segv
    | some last =>
      let cli := cli.setCommand last { cli.commands last with next := some a }
      let cli := cli.setCommand a { cli.commands a with prev := some last }
      .ok (cli.setHead currentnode ⟨some first, some a⟩)

/-- The branch of `register_command` for a token that is not there yet. -/
def createCommand [DecidableEq M] (cli : Cli M H) (currentnode : HeadRef M) (token : Token) :
    Exec (Nat × Cli M H) := do
  let (a, cli) := allocateCommand cli
  let cli := cli.setCommand a { cli.commands a with command := token }
  let cli ← linkCommand cli currentnode a
  return (a, cli)

/-- The command for a token of a name, which is found or created. -/
def registerToken [DecidableEq M] (cli : Cli M H) (currentnode : HeadRef M) (token : Token) :
    Exec (Nat × Cli M H) := do
  match ← findCommand cli currentnode token with
  | some a => return (a, cli)
  | none => createCommand cli currentnode token

/-- The variables of the loop of `register_command`. -/
structure Registering (M H : Type) where
  token : Option Token
  savedToken : List Char
  currentnode : HeadRef M
  currentcommand : Option Nat
  cli : Cli M H

/-- One pass of the loop of `register_command`. -/
def registerPass [DecidableEq M] (s : Registering M H) :
    Exec (Pass (Registering M H) (Option Nat × Cli M H)) :=
  match s.token with
  | none => .ok (.done (s.currentcommand, s.cli))
  | some token => do
    let (a, cli) ← registerToken s.cli s.currentnode token
    let (token, savedToken) := strtokR s.savedToken
    return .again { token, savedToken, currentnode := .child a, currentcommand := some a, cli }

/-- `register_command` -/
def registerCommand [DecidableEq M] (cli : Cli M H) (mode : Option M) (commandName : List Char)
    (handlerFunction : Option H) (hasparams : Bool) : Exec (Cli M H) := do
  let (token, savedToken) := strtokR commandName
  let (currentcommand, cli) ← loop registerPass (commandName.length + 2)
    { token, savedToken, currentnode := modeHead mode, currentcommand := none, cli }
  match currentcommand with
  | none => return cli
  | some a =>
    return cli.setCommand a { cli.commands a with commandHandler := handlerFunction, hasparams }

/-! ## Execution -/

/-- What `execute_commands` does: the handlers it runs, with their parameters, and the head for
which it shows help. -/
structure Executed (M H : Type) where
  calls : List (H × List Token) := []
  help : Option (HeadRef M) := none

def parameterPass : Option Token × List Char × List Token →
    Exec (Pass (Option Token × List Char × List Token) (List Char × List Token))
  | (none, savedToken, parameters) => .ok (.done (savedToken, parameters))
  | (some _, savedToken, parameters) =>
    match strtokR savedToken with
    | (none, savedToken) => .ok (.again (none, savedToken, parameters))
    | (some token, savedToken) => .ok (.again (some token, savedToken, parameters ++ [token]))

def collectParameters (savedToken : List Char) : Exec (List Char × List Token) :=
  match strtokR savedToken with
  | (none, savedToken) => loop parameterPass (savedToken.length + 2) (none, savedToken, [])
  | (some token, savedToken) =>
    loop parameterPass (savedToken.length + 3) (some token, savedToken, [token])

/-- The variables of the loop of `execute_commands` over the commands of a node. -/
structure Calling (H : Type) where
  token : Option Token
  savedToken : List Char
  currentcommand : Option Nat
  executed : Bool
  calls : List (H × List Token)

/-- One pass of that loop. -/
def callPass (cli : Cli M H) (s : Calling H) : Exec (Pass (Calling H) (Calling H)) :=
  match s.executed, s.currentcommand with
  | true, _ => .ok (.done s)
  | false, none => .ok (.done s)
  | false, some a =>
    let command := cli.commands a
    match s.token with
    | none => .error .segv
    | some token =>
      match decide (command.command = token), command.commandHandler with
      | true, some handler =>
        if command.hasparams then do
          let (savedToken, parameters) ← collectParameters s.savedToken
          return .again { token := none, savedToken, currentcommand := command.next,
                          executed := true, calls := s.calls ++ [(handler, parameters)] }
        else
          .ok (.again { s with currentcommand := command.next, executed := true,
                               calls := s.calls ++ [(handler, [])] })
      | _, _ => .ok (.again { s with currentcommand := command.next })

/-- The variables of the outer loop of `execute_commands`. -/
structure Executing (M H : Type) where
  token : Option Token
  savedToken : List Char
  currentnode : HeadRef M
  executed : Bool
  calls : List (H × List Token)

/-- One pass of the outer loop of `execute_commands`. -/
def executePass (cli : Cli M H) (s : Executing M H) :
    Exec (Pass (Executing M H) (Executed M H)) :=
  match s.token, s.executed with
  | none, _ => .ok (.done { calls := s.calls })
  | some _, true => .ok (.done { calls := s.calls })
  | some token, false =>
    if token = ['h', 'e', 'l', 'p'] ∨ token = ['?'] then
      .ok (.done { calls := s.calls, help := some s.currentnode })
    else do
      match ← findCommand cli s.currentnode token with
      | none => return .done { calls := s.calls, help := some s.currentnode }
      | some a =>
        if (cli.commands a).child.next ≠ none then
          let (token, savedToken) := strtokR s.savedToken
          return .again { s with token, savedToken, currentnode := .child a }
        else
          let c ← loop (callPass cli) (cli.allocated + 1)
            { token := some token, savedToken := s.savedToken, currentcommand := some a,
              executed := false, calls := s.calls }
          let (token, savedToken) := strtokR c.savedToken
          return .again { s with token, savedToken, executed := c.executed, calls := c.calls }

/-- `execute_commands` -/
def executeCommands (cli : Cli M H) (mode : Option M) (commandName : List Char) :
    Exec (Executed M H) :=
  if (cli.head (modeHead mode)).next = none then .ok {}
  else
    let (token, savedToken) := strtokR commandName
    loop (executePass cli) (commandName.length + 2)
      { token, savedToken, currentnode := modeHead mode, executed := false, calls := [] }

end Tree

end Opennop
