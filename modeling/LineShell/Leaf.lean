import LineShell.Launch

/-!
# Leaves

How one simple command runs: assignments, `cd`, and `exit` or `quit` inside the running process,
anything else as a child.

## The model

`Rules` holds what a session decides for its trees: the rule for assignments and the operators
that are registered. The words of a leaf are expanded from the table of the running process, and
`Rules.kind` says what its verb then makes of it. An assignment counts before every other reading
of the verb.

`changeDirectory` changes the directory, and behind that `PWD` and `OLDPWD`. A change that the
system refuses is a failure of the command and leaves everything as it was. A text with a NUL and
a directory that cannot be asked for break the leaf off instead. `runExternal` makes a child for
`runChild` and waits for it; where no child can be made it reports that.
-/

namespace LineShell

open Act

/-- How trees are run: the assignment rule, and the operators for which something is registered. -/
structure Rules where
  /-- Whether an assignment needs a plain name before its `=`. -/
  strict : Bool
  /-- The operators that can be run. -/
  operators : List Operator
  deriving DecidableEq, Repr

/-- The verb that changes the directory. -/
def changeVerb : Text := "cd".toList

/-- The verbs that end the session. -/
def endVerbs : List Text := ["exit".toList, "quit".toList]

/-- What the materialized verb of a command makes of it. -/
inductive Kind where
  /-- An assignment of a value to a name. -/
  | assignment (name value : Text)
  /-- A change of directory. -/
  | change
  /-- The end of the session. -/
  | finish
  /-- A program. -/
  | external
  deriving DecidableEq, Repr

/-- The kind of a verb. -/
def Rules.kind (rules : Rules) (verb : Text) : Kind :=
  if isAssignment rules.strict verb then
    match splitAssignment verb with
    | some (name, value) => .assignment name value
    | none => .external
  else if verb = changeVerb then .change
  else if verb ∈ endVerbs then .finish
  else .external

/-- Who logs what concerns leaves. -/
def runner : Text := "SimpleCommandRunner".toList

/-- The beginning of messages that tell how deep in the tree a node lies. -/
def levelText (level : Int) : Text :=
  "[level ".toList ++ intText level ++ "] ".toList

/-- Where `cd` goes: to its first argument, or else to `HOME`. -/
def Command.destination? (c : Command) (table : Table) : Option Text :=
  match c.args with
  | target :: _ => some (target.expand table)
  | [] => table.get? "HOME".toList

/-- Changes the directory of the running process, and with it `PWD` and `OLDPWD`. A change that
the system refuses changes nothing. -/
def changeDirectory (c : Command) : Act Status := do
  match c.destination? (← proc).table with
  | none =>
    debug runner "cd: HOME not set".toList
    return .failure
  | some target =>
    let previous ← getcwd
    match ← attempt (chdir target) with
    | .error (.system e path) =>
      debug runner ("cd ".toList ++ quoted target ++ " failed: ".toList
        ++ (Failure.system e path).message)
      return .failure
    | .error failure => throw failure
    | .ok () =>
      modifyProc fun p => { p with table := p.table.set "OLDPWD".toList previous.path }
      let current ← getcwd
      modifyProc fun p => { p with table := p.table.set "PWD".toList current.path }
      debug runner ("Changed directory to ".toList ++ (← getcwd).path)
      return .success

/-- Runs a command as a child and waits for it. -/
def runExternal (c : Command) : Act Status := do
  match ← attempt (spawn (runChild c)) with
  | .ok pid => await pid
  | .error (.system e path) =>
    error runner ("Cannot fork for ".toList ++ c.shown ++ ": ".toList
      ++ (Failure.system e path).message) none
    report ("fork: ".toList ++ e.reason)
    return .failure
  | .error failure => throw failure

/-- Runs a simple command. -/
def runLeaf (rules : Rules) (mark : Option Nat) (c : Command) (level : Int) : Act Status := do
  let p ← proc
  note (.began p mark c)
  debug runner (levelText level ++ "Simple command: ".toList ++ c.shown)
  match rules.kind (c.verb.expand p.table) with
  | .assignment name value =>
    modifyProc fun p => { p with table := p.table.set name value }
    debug runner ("Set variable: ".toList ++ name ++ ['='] ++ value)
    return .success
  | .change => changeDirectory c
  | .finish =>
    info runner (['\x27'] ++ c.verb.expand p.table ++ "' requested session termination".toList)
    return .terminate
  | .external => runExternal c

end LineShell
