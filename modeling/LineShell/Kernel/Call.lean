import LineShell.Kernel.Stream

/-!
# System calls

The calls by which a process changes its descriptors, its directory and its children. Every call
is counted when it is made; a call for which a failure is planned fails with it and does nothing
else. Texts that hold a NUL are refused before they make a call.

## The model

Every call is `Act.call` applied to its name, to the event that is noted of it, and to its own
work on the machine. `Act.call` counts, lets a planned failure or else the work decide the answer,
and notes it. The answer comes back as a value, and `Act.answer` turns an error into a failure of
the action. So what holds of all calls is proved of this one definition, and what a call does is a
function from machines to machines.

`Act.fork` is the exception: behind the call by which a child gets its number it runs the child to
its end. The child is the running process meanwhile (`Act.runAs`), and afterwards its maker is as
it was, but for what all processes share.
-/

namespace LineShell

/-- Whether a text holds a NUL. -/
def hasNul (t : Text) : Bool :=
  t.contains '\x00'

namespace World

/-- The failure planned for the next call of a name. -/
def planned? (w : World) (c : CallName) : Option Errno :=
  let nth := w.made.count c + 1
  (w.faults.find? fun f => f.call == c && f.nth == nth).map (·.errno)

end World

namespace Machine

/-- The machine with one more call counted. -/
def counted (m : Machine) (c : CallName) : Machine :=
  { m with world := { m.world with made := c :: m.world.made } }

end Machine

namespace Act

/-- Makes a call: counts it, lets the planned failure or else the work decide its answer, and
notes it. The answer is given as it is. -/
def call {α : Type} (c : CallName) (event : Except Errno α → Event)
    (work : Machine → Except Errno (α × Machine)) : Act (Except Errno α) := fun m =>
  match m.world.planned? c with
  | some e => .ok (.error e) ((m.counted c).note (.called m.proc.pid (event (.error e))))
  | none =>
    match work (m.counted c) with
    | .ok (x, next) => .ok (.ok x) (next.note (.called m.proc.pid (event (.ok x))))
    | .error e => .ok (.error e) ((m.counted c).note (.called m.proc.pid (event (.error e))))

/-- Fails if there is a reason to. -/
def refuse : Option Failure → Act Unit
  | none => pure ()
  | some failure => throw failure

/-- Refuses a text that holds a NUL. -/
def refuseNul (t : Text) : Act Unit :=
  refuse (if hasNul t then some .embeddedNull else none)

/-- The answer of a call, or its failure. -/
def answer {α : Type} (path : Option Text) : Except Errno α → Act α
  | .ok x => pure x
  | .error e => throw (.system e path)

/-- The working directory. -/
def getcwd : Act Place := do
  answer none (← call .getcwd .getcwd fun m => .ok (m.proc.cwd, m))

/-- Changes the working directory. -/
def chdir (path : Text) : Act Unit := do
  refuseNul path
  answer (some path) <| ← call .chdir (.chdir path) fun m =>
    match m.world.files.resolve m.proc.cwd path with
    | .error e => .error e
    | .ok place =>
      match m.world.files.node? place with
      | some (.directory mode) =>
        if mode.pass then .ok ((), { m with proc.cwd := place }) else .error .accessDenied
      | _ => .error .notDirectory

/-- Makes a channel; gives its read end and its write end, on the two lowest free descriptors. -/
def pipe : Act (Nat × Nat) := do
  answer none <| ← call .pipe .pipe fun m =>
    let files := m.world.opened.length
    let channel := m.world.channels.length
    let readFd := m.proc.fds.free
    let fds := m.proc.fds.set readFd files
    let writeFd := fds.free
    .ok ((readFd, writeFd),
      { m with
        world.opened := m.world.opened ++
          [⟨.readEnd channel, false, false, 0⟩, ⟨.writeEnd channel, true, false, 0⟩]
        world.channels := m.world.channels ++ [[]]
        proc.fds := fds.set writeFd (files + 1) })

/-- Makes one descriptor refer to what another one refers to. -/
def dup (source target : Nat) : Act Unit := do
  answer none <| ← call .dup (.dup source target) fun m =>
    match m.proc.fds.get? source with
    | some file => .ok ((), { m with proc.fds := m.proc.fds.set target file })
    | none => .error .badDescriptor

/-- Closes a descriptor. -/
def close (fd : Nat) : Act Unit := do
  answer none <| ← call .close (.close fd) fun m =>
    match m.proc.fds.get? fd with
    | some _ => .ok ((), { m with proc.fds := m.proc.fds.erase fd })
    | none => .error .badDescriptor

/-- The place that a path names for opening, and the file tree in which it exists: one that is
opened for writing is made if it is missing. -/
def locate (files : FileTree) (cwd : Place) (path : Text) (mode : OpenMode) :
    Except Errno (Place × FileTree) :=
  match files.resolve cwd path with
  | .ok place => .ok (place, files)
  | .error .noEntry =>
    if mode = .read then .error .noEntry
    else
      (files.newPlace cwd path).map fun place => (place, files.put place (.file .plain [] none))
  | .error e => .error e

/-- What an open gives access to, and the file tree after it. -/
def access (files : FileTree) (place : Place) (mode : OpenMode) :
    Except Errno (Target × FileTree) :=
  match files.node? place with
  | none => .error .noEntry
  | some (.directory m) =>
    if mode ≠ .read then .error .isDirectory
    else if m.read then .ok (.place place, files)
    else .error .accessDenied
  | some .null => .ok (.null, files)
  | some (.file m data program) =>
    if mode = .read then
      if m.read then .ok (.place place, files) else .error .accessDenied
    else if !m.write then .error .accessDenied
    else if mode = .truncate then .ok (.place place, files.put place (.file m [] program))
    else .ok (.place place, files.put place (.file m data program))

/-- Opens a file on the lowest free descriptor. -/
def openFile (path : Text) (mode : OpenMode) : Act Nat := do
  refuseNul path
  answer (some path) <| ← call .openFile (.openFile path mode) fun m =>
    match locate m.world.files m.proc.cwd path mode with
    | .error e => .error e
    | .ok (place, files) =>
      match access files place mode with
      | .error e => .error e
      | .ok (target, files) =>
        let fd := m.proc.fds.free
        .ok (fd,
          { m with
            world.files := files
            world.opened := m.world.opened ++ [⟨target, mode ≠ .read, mode = .append, 0⟩]
            proc.fds := m.proc.fds.set fd m.world.opened.length })

/-- Waits for a child; gives its raw wait status. A child can be waited for once. -/
def wait (pid : Nat) : Act Nat := do
  answer none <| ← call .wait (.wait pid) fun m =>
    match m.world.ended.find? fun e => e.1 == pid with
    | some (_, raw) =>
      .ok (raw, { m with world.ended := m.world.ended.filter fun e => e.1 != pid })
    | none => .error .noChild

/-- Runs a child to its end as a process of its own. It starts as a copy of the running process,
with another number; when it has ended the running process is as it was, and only what all
processes share has changed. -/
def runAs (pid : Nat) (child : Act Nat) : Act Unit := fun m =>
  match child { m with proc.pid := pid } with
  | .ok raw after =>
    .ok () { m with world := { after.world with ended := after.world.ended ++ [(pid, raw)] } }
  | .error _ after =>
    .ok ()
      { m with world := { after.world with ended := after.world.ended ++ [(pid, exitedRaw 1)] } }

/-- Makes a child, which runs to its end at once; gives its number. -/
def fork (child : Act Nat) : Act Nat := do
  let pid ← answer none <| ← call .fork .fork fun m =>
    .ok (m.world.nextPid, { m with world.nextPid := m.world.nextPid + 1 })
  runAs pid child
  return pid

end Act

end LineShell
