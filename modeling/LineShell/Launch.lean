import LineShell.Kernel.Image

/-!
# Children, channels and redirects

The one place where the shell makes processes: children that never return into their maker's work,
channels whose ends are bound to standard streams, redirects, and the step from a command to a
program.

## The model

* `spawn` makes a child for some work and `await` waits for one. Whatever the work comes to, the
  life of a child ends with an exit (`childLife`): a failure that the work does not handle is
  logged and becomes exit code 1.
* `createChannel` makes a channel. `bindStream` makes a standard stream refer to one of its ends
  and closes the descriptors that are no longer needed, but never the standard stream itself,
  which can be one of them where standard streams are closed.
* `Command.bindings` lists the files that a command asks for, and `bindAll` opens and binds them
  one after the other. Output and errors with one path share one open file. What was opened is
  closed in the end and also before a failure is passed on, standard streams excepted.
* `runProgram` turns the running process into a program, and where that fails tells the user and
  answers with the exit code for it. `runChild` is all that the child of an external command does.
-/

namespace LineShell

namespace Act

/-- Who logs what concerns processes. -/
def launcher : Text := "ProcessLauncher".toList

/-- Changes the call counts of the running process. -/
def tally (f : Stats → Stats) : Act Unit :=
  modifyProc fun p => { p with stats := f p.stats }

end Act

/-! ### Children -/

/-- How the work of a child ends. -/
inductive ChildEnd where
  /-- The child exits with a code. -/
  | exit (code : Nat)
  /-- The child became a program, which ended with a raw wait status. -/
  | program (raw : Nat)

open Act

/-- The life of a child: its work, and an exit whatever the work comes to. A failure that the
work does not deal with is logged, and is exit code 1. -/
def childLife (work : Act ChildEnd) : Act Nat := do
  called .restoreSignal
  match ← attempt work with
  | .ok (.program raw) => return raw
  | .ok (.exit code) =>
    called (.exited code)
    return exitedRaw code
  | .error failure =>
    error launcher ("Unhandled error in child ".toList ++ natText (← proc).pid) (some failure)
    called (.exited 1)
    return exitedRaw 1

/-- Makes a child for some work; gives its number. -/
def spawn (work : Act ChildEnd) : Act Nat := do
  let pid ← fork (childLife work)
  tally fun s => { s with fork := s.fork + 1 }
  debug launcher ("Forked child ".toList ++ natText pid)
  return pid

/-- Waits for a child; gives the status that its end stands for. -/
def await (pid : Nat) : Act Status := do
  let ending := Ending.ofRaw (← wait pid)
  tally fun s => { s with wait := s.wait + 1 }
  match ending with
  | .exited code =>
    debug launcher ("Child ".toList ++ natText pid ++ " exited with ".toList ++ natText code)
  | .killed signal =>
    debug launcher
      ("Child ".toList ++ natText pid ++ " killed by signal ".toList ++ natText signal)
  | .stopped => pure ()
  return ending.status

/-! ### Channels -/

/-- Makes a channel; gives its read end and its write end. -/
def createChannel : Act (Nat × Nat) := do
  let (readFd, writeFd) ← pipe
  tally fun s => { s with pipe := s.pipe + 1 }
  debug launcher
    ("Created channel r=".toList ++ natText readFd ++ " w=".toList ++ natText writeFd)
  return (readFd, writeFd)

/-- Closes descriptors in their order. -/
def closeAll (fds : List Nat) : Act Unit :=
  fds.forM close

/-- Makes a standard stream refer to what a descriptor refers to, then closes the descriptors
that are no longer needed. The standard stream itself is never among those. -/
def bindStream (fd standard : Nat) (spare : List Nat) : Act Unit := do
  dup fd standard
  closeAll (spare.filter (· ≠ standard))

/-! ### Redirects -/

/-- A file to be opened, and the standard streams that it is bound to. -/
structure Binding where
  /-- The path. -/
  path : Text
  /-- How it is opened. -/
  mode : OpenMode
  /-- The standard streams. -/
  streams : List Nat
  deriving DecidableEq, Repr

/-- How a redirect opens its file. -/
def Redirect.mode (r : Redirect) : OpenMode :=
  if r.append then .append else .truncate

/-- The bindings that a command asks for: input first, then output, then errors. Output and
errors with one path share one open file, so that neither empties it under the other. -/
def Command.bindings (c : Command) (table : Table) : List Binding :=
  let one (r : Redirect) (stream : Nat) : Binding := ⟨r.target.expand table, r.mode, [stream]⟩
  (c.input.map fun w => (⟨w.expand table, .read, [0]⟩ : Binding)).toList ++
  match c.output, c.errors with
  | none, none => []
  | some out, none => [one out 1]
  | none, some err => [one err 2]
  | some out, some err =>
    if out.target.expand table = err.target.expand table then
      [⟨out.target.expand table, out.mode, [1, 2]⟩]
    else [one out 1, one err 2]

/-- Closes what was opened for redirects, standard streams excepted. -/
def closeOpened (opened : List Nat) : Act Unit :=
  closeAll (opened.filter (2 < ·))

/-- Opens and binds one file after the other. In the end, and before a failure is passed on,
whatever was opened is closed again. -/
def bindAll (opened : List Nat) : List Binding → Act Unit
  | [] => closeOpened opened
  | b :: bs => do
    match ← attempt (openFile b.path b.mode) with
    | .error e =>
      closeOpened opened
      throw e
    | .ok fd =>
      match ← attempt (b.streams.forM (dup fd)) with
      | .error e =>
        closeOpened (opened ++ [fd])
        throw e
      | .ok () => bindAll (opened ++ [fd]) bs

/-- Binds the standard streams of the running process as a command asks. -/
def applyRedirects (c : Command) : Act Unit := do
  bindAll [] (c.bindings (← proc).table)

/-! ### Programs -/

/-- Turns the running process into the program that an argument vector names. Where that fails
the user is told, and the exit code says whether the program was missing (127), not to be run
(126), or kept back by something else (1). -/
def runProgram (argv : List Text) : Act ChildEnd := do
  tally fun s => { s with exec := s.exec + 1 }
  match argv with
  | [] | [] :: _ =>
    report "empty command".toList
    return .exit 127
  | file :: _ =>
    match ← exec file argv with
    | .ok raw => return .program raw
    | .error .noEntry =>
      report (file ++ ": command not found".toList)
      return .exit 127
    | .error .accessDenied =>
      report (file ++ ": ".toList ++ Errno.accessDenied.reason)
      return .exit 126
    | .error .notPermitted =>
      report (file ++ ": ".toList ++ Errno.notPermitted.reason)
      return .exit 126
    | .error e =>
      report ("Execution failed for '".toList ++ file ++ "': ".toList ++ e.reason)
      return .exit 1

/-- What a child does for an external command: redirects, then the program. A redirect that
fails is reported by its path, if it has one. -/
def runChild (c : Command) : Act ChildEnd := do
  match ← attempt (applyRedirects c) with
  | .ok () => runProgram (c.argv (← proc).table)
  | .error (.system e path) =>
    report (path.getD "None".toList ++ ": ".toList ++ e.reason)
    return .exit 1
  | .error failure => throw failure

end LineShell
