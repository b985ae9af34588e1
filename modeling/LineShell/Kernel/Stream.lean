import LineShell.Kernel.Machine

/-!
# Reading and writing

Bytes in and out of open files. Reads and writes are not counted as system calls, and they are
what programs, diagnostics and the log have in common.

## The model

* `World.write` and `World.read` go through an open file: to and from a file of the tree at the
  offset that all descriptors of the open file share, to and from a channel, to the outputs, from
  the input. They fail where the file is open for the other direction.
* `Machine.write` and `Machine.read` go through a descriptor and note what was written or read. A
  write that is made for the log is noted as such.
* `report` tells the user of a failure on standard error, and fails itself where that cannot be
  written to. `logRecord` notes a record; where it is weighty enough it is also written to
  standard error, and a write that fails there is passed over.
-/

namespace LineShell

/-- The contents of a file after a write at an offset: a gap before it fills with NUL bytes. -/
def overwrite (data : Bytes) (offset : Nat) (bs : Bytes) : Bytes :=
  data.take offset ++ List.replicate (offset - data.length) 0 ++ bs
    ++ data.drop (offset + bs.length)

/-- The first line of some bytes, with its newline if there is one. -/
def firstLine (bs : Bytes) : Bytes :=
  bs.takeWhile (· ≠ 10) ++ (bs.dropWhile (· ≠ 10)).take 1

namespace World

/-- Writes bytes through an open file. -/
def write (w : World) (file : Nat) (bs : Bytes) : Except Errno World :=
  match w.opened[file]? with
  | none => .error .badDescriptor
  | some f =>
    if !f.writes then .error .badDescriptor
    else
      match f.target with
      | .output => .ok { w with output := w.output ++ bs }
      | .errors => .ok { w with errors := w.errors ++ bs }
      | .null => .ok w
      | .writeEnd n => .ok { w with channels := w.channels.modify n (· ++ bs) }
      | .place p =>
        match w.files.node? p with
        | some (.file mode data program) =>
          let start := if f.atEnd then data.length else f.offset
          .ok { w with
            files := w.files.put p (.file mode (overwrite data start bs) program)
            opened := w.opened.set file { f with offset := start + bs.length } }
        | _ => .error .badDescriptor
      | .readEnd _ | .input => .error .badDescriptor

/-- Reads through an open file: `part` says how much of what is left is taken. -/
def read (w : World) (file : Nat) (part : Bytes → Bytes) : Except Errno (Bytes × World) :=
  match w.opened[file]? with
  | none => .error .badDescriptor
  | some f =>
    if f.writes then .error .badDescriptor
    else
      match f.target with
      | .input =>
        .ok (part w.input, { w with input := w.input.drop (part w.input).length })
      | .null => .ok ([], w)
      | .readEnd n =>
        let left := w.channels.getD n []
        .ok (part left, { w with channels := w.channels.modify n (·.drop (part left).length) })
      | .place p =>
        match w.files.node? p with
        | some (.file _ data _) =>
          let taken := part (data.drop f.offset)
          .ok (taken, { w with
            opened := w.opened.set file { f with offset := f.offset + taken.length } })
        | _ => .error .isDirectory
      | .writeEnd _ | .output | .errors => .error .badDescriptor

end World

namespace Machine

/-- Writes bytes to a descriptor of the running process, for the log or for itself. -/
def write (m : Machine) (log : Bool) (fd : Nat) (bs : Bytes) : Except Errno Machine :=
  match m.proc.fds.get? fd with
  | none => .error .badDescriptor
  | some file =>
    (m.world.write file bs).map fun w =>
      { m with world := w.note (.wrote m.proc.pid file bs log) }

/-- Reads from a descriptor of the running process. -/
def read (m : Machine) (fd : Nat) (part : Bytes → Bytes) : Except Errno (Bytes × Machine) :=
  match m.proc.fds.get? fd with
  | none => .error .badDescriptor
  | some file =>
    (m.world.read file part).map fun (bs, w) =>
      (bs, { m with world := w.note (.took m.proc.pid file bs) })

/-- Writes chunks to descriptors, in order, up to the first write that fails; tells whether all
were written. -/
def emit (m : Machine) : List (Nat × Bytes) → Bool × Machine
  | [] => (true, m)
  | (fd, bs) :: chunks =>
    match m.write false fd bs with
    | .ok m => emit m chunks
    | .error _ => (false, m)

end Machine

namespace Act

/-- Writes a text to a descriptor of the running process, for the log or for itself, and fails
where the write fails. -/
def writeText (log : Bool) (fd : Nat) (t : Text) : Act Unit := fun m =>
  match m.write log fd (encode t) with
  | .ok m => .ok () m
  | .error e => .error (.system e none) m

/-- Says something on a descriptor of the running process. -/
def say (fd : Nat) (t : Text) : Act Unit := writeText false fd t

/-- Tells the user of a failure, on standard error. -/
def report (message : Text) : Act Unit :=
  say 2 ("tree_shell: ".toList ++ message ++ ['\n'])

/-- A record as it is written out. -/
def recordLine (r : Record) : Text :=
  r.level.name ++ " - ".toList ++ r.logger ++ " - ".toList ++ r.message ++ ['\n']

/-- Logs a record. A weighty one also goes to standard error, if that can be written to. -/
def logRecord (r : Record) : Act Unit := do
  note (.logged r)
  if ((← world).echoFrom.map fun n => decide (n ≤ r.level.number)).getD false then
    let _ ← attempt (writeText true 2 (recordLine r))

/-- Logs a message for those who look for a mistake. -/
def debug (logger message : Text) : Act Unit :=
  logRecord ⟨.debug, logger, message, none⟩

/-- Logs something worth knowing. -/
def info (logger message : Text) : Act Unit :=
  logRecord ⟨.info, logger, message, none⟩

/-- Logs a failure, with its cause if that is known. -/
def error (logger message : Text) (cause : Option Failure) : Act Unit :=
  logRecord ⟨.error, logger, message, cause⟩

end Act

end LineShell
