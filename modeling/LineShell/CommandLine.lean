import LineShell.Options
import LineShell.Session
import LineShell.Kernel.Boot

/-!
# The command line

From the arguments of the program to its exit code: one line given by an option, or the lines of
the input.

## The model

* `CommandLine.settings` puts the settings of the environment and those of the arguments together,
  where the arguments count for more.
* `CommandLine.startLog` sets the threshold from which on records are echoed. The name of a level
  can fail to be one, and the log has a few other names that can be taken for a level
  (`namesOfNoLevel`).
* `CommandLine.start` brings a session about, or answers with the exit code of the help or of a
  usage message. The variables of the process become the table of the session.
* `CommandLine.exitCode` runs what was asked for to its end. A line that ends the session leaves
  with the last number before it.
-/

namespace LineShell

open Act

namespace CommandLine

/-- The layout of records where none is chosen. -/
def layout : Text := "%(levelname)s:%(name)s:%(message)s".toList

/-- The ways to write a layout: the mark before a field, the name of the way, and its layout
where none is chosen. -/
def layoutStyles : List (Char × Text × Text) :=
  [('%', "Percent".toList, layout),
   ('\x7b', "StrFormat".toList, "\x7blevelname\x7d:\x7bname\x7d:\x7bmessage\x7d".toList),
   ('$', "StringTemplate".toList, "$\x7blevelname\x7d:$\x7bname\x7d:$\x7bmessage\x7d".toList)]

/-- How a message shows the ways to write a layout. -/
def shownStyles : Text :=
  let shown := layoutStyles.map fun (mark, name, layout) =>
    quoted [mark] ++ ": (<class 'logging.".toList ++ name ++ "Style'>, ".toList ++ quoted layout
      ++ [')']
  "\x7b".toList ++ joinWith [',', ' '] shown ++ "\x7d".toList

/-- The settings of the log level that are taken for something else the log has under that name:
the layout of records, and the ways to write one. Neither can serve as a level. -/
def namesOfNoLevel : List (Text × Failure) :=
  [("BASIC_FORMAT".toList, .unknownLevel layout), ("_STYLES".toList, .notALevel shownStyles)]

/-- The settings in force: what the environment asks for, overruled by the arguments. -/
def settings (choices : Choices) (environment : Table) : Settings :=
  let base := Settings.ofEnvironment environment
  { base with
    strictAssignments := base.strictAssignments && !choices.loose
    logLevel :=
      match choices.verbosity with
      | 0 => base.logLevel
      | 1 => "INFO".toList
      | _ => "DEBUG".toList }

/-- Lets records from a level on go to standard error as well. -/
def startLog (levelName : Text) : Act Unit := do
  if let some (_, failure) := namesOfNoLevel.find? fun e => e.1 == levelName then throw failure
  modifyWorld fun w => { w with echoFrom := some (Level.threshold levelName) }

/-- Reads the arguments and starts a session, with the variables of the running process as its
environment. Gives the exit code instead where no session comes about: after the help, which is
shown on standard output, or after a usage message on standard error. -/
def start (arguments : List Text) : Act (Except Nat (Choices × Shell)) := do
  match readArguments arguments with
  | .error .help =>
    let _ ← attempt (say 1 helpText)
    return .error 0
  | .error (.usage e) =>
    let _ ← attempt (say 2 usageText)
    let _ ← attempt (report ("error: ".toList ++ e.message))
    return .error 2
  | .ok choices =>
    let settings := settings choices (← proc).table
    startLog settings.logLevel
    Shell.start
    return .ok (choices, Shell.ofSettings settings)

/-- Runs the line that was asked for, or else the lines of the input; gives the exit code. A
line that ends the session leaves with the last number before it. -/
def run (choices : Choices) (shell : Shell) (interactive : Bool) (input : Text) : Act Nat := do
  match choices.command with
  | some line =>
    match ← shell.runLine line with
    | .terminate => return (Status.code (← proc).sessionLast).exitCode
    | .code n => return (Status.code n).exitCode
  | none =>
    let n ← shell.runText interactive input
    return (Status.code n).exitCode

/-- Does what the arguments ask for, with the lines of an input; gives the exit code. -/
def exitCode (arguments : List Text) (interactive : Bool) (input : Text) : Act Nat := do
  match ← start arguments with
  | .error code => return code
  | .ok (choices, shell) => run choices shell interactive input

/-- Whether the arguments ask for the lines of the input. -/
def readsInput (arguments : List Text) : Bool :=
  match readArguments arguments with
  | .ok choices => choices.command.isNone
  | .error _ => false

end CommandLine

end LineShell
