import LineShell.Execute
import LineShell.Line
import LineShell.Settings

/-!
# Sessions

The loop around the trees: a line is read, turned into a tree and run, until the input ends or a
command ends the session.

## The model

* A `Shell` is a session: its settings and the operators that it can run. What changes while it
  runs is in the machine.
* `Shell.runLine` runs one line. A line without a command succeeds and leaves everything as it
  was, and one that cannot be read is reported. The session hands its last number to the commands
  of the line and takes it back behind them.
* `Shell.runUntilEnd` runs lines until one of them ends the session, and `Shell.runLines` gives
  the last number behind them. `Shell.runText` cuts a text into lines first; the text is read
  apart from standard input, so no command of it can take a line away.

A failure that no part of a line handles leaves the loop; there is no line after it.
-/

namespace LineShell

open Act

/-- A session: its settings, and how it runs trees. -/
structure Shell where
  /-- The settings. -/
  settings : Settings
  /-- The operators that can be run. -/
  operators : List Operator
  deriving DecidableEq, Repr

namespace Shell

/-- Who logs what concerns lines. -/
def logger : Text := "Shell".toList

/-- The session that settings ask for. -/
def ofSettings (settings : Settings) : Shell :=
  ⟨settings, Operator.all⟩

/-- How the session runs trees. -/
def rules (shell : Shell) : Rules :=
  ⟨shell.settings.strictAssignments, shell.operators⟩

/-- Starts a session. -/
def start : Act Unit :=
  info executor "CommandExecutor initialized".toList

/-- Runs one line. A line without commands succeeds; one that cannot be read is reported. The
last number of the session goes to the commands of the line and comes back from them. -/
def runLine (shell : Shell) (line : Text) : Act Status := do
  match parseLine line with
  | .error e =>
    report ("syntax error: ".toList ++ e.message)
    modifyProc fun p => { p with sessionLast := 2 }
    return .malformed
  | .ok none => return .success
  | .ok (some tree) =>
    debug logger ("Command tree:\n".toList ++ tree.outline 0)
    modifyProc fun p => { p with commandLast := p.sessionLast }
    let status ← execute shell.rules tree 0
    modifyProc fun p => { p with sessionLast := p.commandLast }
    return status

/-- Shows the prompt to those who type. -/
def showPrompt (shell : Shell) (interactive : Bool) : Act Unit := do
  if interactive then say 1 shell.settings.prompt

/-- Runs lines until there are no more, or one ends the session; tells whether one did. -/
def runUntilEnd (shell : Shell) (interactive : Bool) : List Text → Act Bool
  | [] => do
    shell.showPrompt interactive
    return false
  | line :: lines => do
    shell.showPrompt interactive
    match ← shell.runLine line with
    | .terminate =>
      info logger "Session terminated by exit/quit".toList
      return true
    | .code _ => runUntilEnd shell interactive lines

/-- Runs lines as far as they go; gives the last number. -/
def runLines (shell : Shell) (interactive : Bool) (lines : List Text) : Act Int := do
  let _ ← shell.runUntilEnd interactive lines
  return (← proc).sessionLast

/-- Runs the lines of a text. -/
def runText (shell : Shell) (interactive : Bool) (text : Text) : Act Int :=
  shell.runLines interactive (linesOf text)

end Shell

end LineShell
