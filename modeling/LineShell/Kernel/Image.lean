import LineShell.Kernel.Call

/-!
# Program images

What the installed programs do, and how a process turns into one. A program reads first, then
writes its chunks in order. It ends with exit code 1 when a read or a write fails.

## The model

* `Program.run` is a function of the argument vector and of the machine; of the process it uses
  the descriptors, the directory and the variables. It answers with a raw wait status.
* `candidates` lists the paths at which a program is looked for: the name itself if it holds a
  slash, else one in each directory of the search path. `searchProgram` takes the first that can
  be entered; where none can, the error that says more than absence is kept over those that do
  not.
* `environmentFault?` and `imageFault?` say which texts no program can be given: a NUL anywhere,
  and a variable whose name is empty or holds `=`.
* `Act.exec` puts these together and notes the program that is entered with the process as it is.
-/

namespace LineShell

namespace Program

/-- The bytes of some words and a newline. -/
def line (words : List Text) : Bytes :=
  encode (joinWith [' '] words ++ ['\n'])

/-- Chunks that go to standard output and standard error in turn. -/
def alternate : List Text → List (Nat × Bytes)
  | [] => []
  | [a] => [(1, line [a])]
  | a :: b :: rest => (1, line [a]) :: (2, line [b]) :: alternate rest

/-- The one argument of a program that wants a number. -/
def number? : List Text → Option Nat
  | [t] => readNat t
  | _ => none

/-- Orders texts by their code points. -/
def textLe : Text → Text → Bool
  | [], _ => true
  | _ :: _, [] => false
  | a :: as, b :: bs => if a = b then textLe as bs else a.toNat < b.toNat

/-- The variables of a table as lines, sorted by name. -/
def environmentLines (table : Table) : Text :=
  (table.mergeSort fun a b => textLe a.1 b.1).flatMap fun (name, value) =>
    name ++ ['='] ++ value ++ ['\n']

/-- Ends well if all chunks were written. -/
def finish (r : Bool × Machine) : Nat × Machine :=
  (if r.1 then exitedRaw 0 else exitedRaw 1, r.2)

/-- Reads from standard input, then writes what the bytes read call for to standard output. -/
def filter (m : Machine) (part : Bytes → Bytes) (render : Bytes → Bytes) : Nat × Machine :=
  match m.read 0 part with
  | .error _ => (exitedRaw 1, m)
  | .ok (bs, m) => finish (m.emit [(1, render bs)])

/-- Runs a program to its end with an argument vector; gives its raw wait status. -/
def run (p : Program) (args : List Text) (m : Machine) : Nat × Machine :=
  match p with
  | .succeed => (exitedRaw 0, m)
  | .fail => (exitedRaw 1, m)
  | .echo => finish (m.emit [(1, line args)])
  | .err => finish (m.emit [(2, line args)])
  | .both => finish (m.emit (alternate args))
  | .cat => filter m id id
  | .count => filter m id fun bs => line [natText bs.length]
  | .head => filter m firstLine id
  | .status => (((number? args).map fun n => exitedRaw n).getD (exitedRaw 2), m)
  | .die => (((number? args).map fun n => n % 128).getD (exitedRaw 2), m)
  | .raw => (((number? args).map fun n => n % 65536).getD (exitedRaw 2), m)
  | .env => finish (m.emit [(1, encode (environmentLines m.proc.table))])
  | .args => finish (m.emit [(1, encode (args.flatMap fun a => ['<'] ++ a ++ ['>', '\n']))])
  | .pwd => finish (m.emit [(1, encode (m.proc.cwd.path ++ ['\n']))])
  | .fds => finish (m.emit [(1, line (m.proc.fds.numbers.map natText))])

end Program

/-! ### Finding a program -/

/-- The directories searched where a table names none. -/
def defaultPath : Text := "/bin:/usr/bin".toList

/-- The path of a file in a directory. -/
def inDirectory (directory file : Text) : Text :=
  if directory = [] || directory.getLast? = some '/' then directory ++ file
  else directory ++ ['/'] ++ file

/-- The paths at which a program is looked for: its own if it holds a slash, else one in each
directory of the search path. -/
def candidates (table : Table) (file : Text) : List Text :=
  if file.contains '/' then [file]
  else
    (splitAt ':' ((table.get? "PATH".toList).getD defaultPath)).map fun d => inDirectory d file

/-- The program that a path names, and its place. -/
def programAt (files : FileTree) (cwd : Place) (path : Text) : Except Errno (Place × Program) :=
  match files.resolve cwd path with
  | .error e => .error e
  | .ok place =>
    match files.node? place with
    | some (.file mode _ program) =>
      if !mode.pass then .error .accessDenied
      else
        match program with
        | some p => .ok (place, p)
        | none => .error .notExecutable
    | _ => .error .accessDenied

/-- Whether an error only says that a program is not there. -/
def Errno.isAbsence : Errno → Bool
  | .noEntry => true
  | .notDirectory => true
  | _ => false

/-- The program at the first path of a list that names one, and its place. If none does, the error
is the first one that says more than absence, or else the last one. -/
def searchProgram (files : FileTree) (cwd : Place) (kept : Option Errno) :
    List Text → Errno → Except Errno (Place × Program)
  | [], last => .error (kept.getD last)
  | path :: paths, _ =>
    match programAt files cwd path with
    | .ok found => .ok found
    | .error e =>
      searchProgram files cwd (if e.isAbsence then kept else kept <|> some e) paths e

/-- What is wrong with an environment for a program: the first entry decides that holds a NUL,
or whose name is empty or holds `=`. -/
def environmentFault? : Table → Option Failure
  | [] => none
  | (name, value) :: rest =>
    if hasNul name || hasNul value then some .embeddedNull
    else if name = [] || name.contains '=' then some .illegalName
    else environmentFault? rest

/-- What is wrong with the texts that a program is to be run with. -/
def imageFault? (file : Text) (argv : List Text) (environment : Table) : Option Failure :=
  if hasNul file || argv.any hasNul then some .embeddedNull
  else environmentFault? environment

/-- Runs a program in the running process. -/
def Act.runImage (program : Program) (args : List Text) : Act Nat := fun m =>
  .ok (program.run args m).1 (program.run args m).2

/-- Turns the running process into a program, found by its name or path, and runs it to its end.
Gives its raw wait status, or the error if no program was entered. -/
def Act.exec (file : Text) (argv : List Text) : Act (Except Errno Nat) := do
  let p ← proc
  refuse (imageFault? file argv p.table)
  let found ← call .exec (fun r => .exec file argv (r.map (·.1.path))) fun m =>
    (searchProgram m.world.files m.proc.cwd none (candidates p.table file) .noEntry).map
      fun found => (found, m)
  match found with
  | .error e => return .error e
  | .ok (_, program) =>
    note (.entered p argv)
    let raw ← runImage program argv.tail
    called (.ended raw)
    return .ok raw

end LineShell
