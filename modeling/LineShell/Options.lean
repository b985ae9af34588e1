import LineShell.Text.Quoted
import LineShell.Text.Letters

/-!
# Options

How the arguments of the command line are read. Long options may be shortened as far as one option
only is meant, short ones may be written together, and an option's value may follow it in the same
argument or in the next. An argument is taken for an option if it starts with a dash, unless it is
a dash alone, reads as a negative number, or holds a space and is none of the known options.
Behind `--` there are no options.

## The model

* `classify` says of each argument by itself what it is taken for, and `classifyAll` does so up to
  the mark behind which there are no options.
* `takeApart` and `cluster` resolve an argument that is an option: into the options written
  together in it and a last one that may still need its value.
* `choose` goes through the classified arguments in order and carries the options out. It stops at
  the request for help, and it keeps the arguments that mean nothing for a message at the end.
* `readArguments` puts these together; `Stop` tells why there is no session to run.

The module serves the program that is built around a session. No theorem is about it; what is
proved of sessions is proved for every choice of rules that it can lead to.
-/

namespace LineShell

/-- The options. -/
inductive Flag where
  /-- Show the help and leave. -/
  | help
  /-- Run one command line. -/
  | command
  /-- Take every verb with a `=` for an assignment. -/
  | loose
  /-- Log more. -/
  | verbose
  deriving DecidableEq, Repr

namespace Flag

/-- How the options are written, in the order in which they are listed. -/
def spellings : List (Text × Flag) :=
  [("-h".toList, .help), ("--help".toList, .help), ("-c".toList, .command),
   ("--loose-assignments".toList, .loose), ("-v".toList, .verbose), ("--verbose".toList, .verbose)]

/-- The option of a spelling. -/
def ofSpelling? (t : Text) : Option Flag :=
  (spellings.find? fun e => e.1 == t).map (·.2)

/-- How a message names the option: by all its spellings. -/
def label (f : Flag) : Text :=
  joinWith ['/'] ((spellings.filter fun e => e.2 == f).map (·.1))

/-- Whether the option needs a value. -/
def takesValue : Flag → Bool
  | .command => true
  | _ => false

end Flag

/-- Why arguments are refused. -/
inductive UsageError where
  /-- A shortened option can mean several. -/
  | ambiguous (argument : Text) (meanings : List Text)
  /-- An option lacks its value. -/
  | noValue (f : Flag)
  /-- An option that takes no value has one. -/
  | needlessValue (f : Flag) (value : Text)
  /-- Arguments are left that mean nothing. -/
  | unrecognized (arguments : List Text)
  deriving DecidableEq, Repr

/-- What is said of arguments that are refused. -/
def UsageError.message : UsageError → Text
  | .ambiguous argument meanings =>
    "ambiguous option: ".toList ++ argument ++ " could match ".toList
      ++ joinWith [',', ' '] meanings
  | .noValue f => "argument ".toList ++ f.label ++ ": expected one argument".toList
  | .needlessValue f value =>
    "argument ".toList ++ f.label ++ ": ignored explicit argument ".toList ++ quoted value
  | .unrecognized arguments => "unrecognized arguments: ".toList ++ joinWith [' '] arguments

/-- What an argument is taken for. -/
inductive Argument where
  /-- Something other than an option. -/
  | plain
  /-- The mark behind which there are no options. -/
  | endMark
  /-- An option, in its short spelling or its long one, with what is attached to it. -/
  | flag (f : Flag) (short : Bool) (attached : Option Text)
  /-- An option that is not known. -/
  | unknown
  deriving DecidableEq, Repr

/-- A dash, digits, and perhaps a point before the last of them; a newline may follow. -/
def readsAsNegative (t : Text) : Bool :=
  let body := if t.getLast? = some '\n' then t.dropLast else t
  match body with
  | '-' :: digits =>
    let fraction := digits.dropWhile isDecimalDigit
    if fraction.isEmpty then !digits.isEmpty
    else
      fraction.head? = some '.' && !fraction.tail.isEmpty && fraction.tail.all isDecimalDigit
  | _ => false

/-- The options that an argument of unknown spelling can mean: a long one by its beginning, a
short one with a value, or further short options, behind its letter. -/
def meanings (t : Text) : List (Text × Argument) :=
  if ['-', '-'].isPrefixOf t then
    let name := t.takeWhile (· ≠ '=')
    let attached := match t.dropWhile (· ≠ '=') with
      | [] => none
      | _ :: value => some value
    (Flag.spellings.filter fun e => name.isPrefixOf e.1).map fun (spelling, f) =>
      (spelling, .flag f false attached)
  else
    (Flag.spellings.filter fun e => e.1 == t.take 2).map fun (spelling, f) =>
      (spelling, .flag f true (some (t.drop 2)))

/-- Whether a spelling is short. -/
def isShort (spelling : Text) : Bool :=
  !(['-', '-'].isPrefixOf spelling)

/-- What an argument is taken for. -/
def classify (t : Text) : Except UsageError Argument :=
  if t.head? ≠ some '-' || t = ['-'] then .ok .plain
  else
    match Flag.ofSpelling? t with
    | some f => .ok (.flag f (isShort t) none)
    | none =>
      let name := t.takeWhile (· ≠ '=')
      match t.dropWhile (· ≠ '='), Flag.ofSpelling? name with
      | _ :: value, some f => .ok (.flag f (isShort name) (some value))
      | _, _ =>
        match meanings t with
        | [(_, argument)] => .ok argument
        | [] => .ok (if readsAsNegative t || t.contains ' ' then .plain else .unknown)
        | several => .error (.ambiguous t (several.map (·.1)))

/-- What the arguments are taken for, each by itself up to the mark. -/
def classifyAll : List Text → Except UsageError (List (Text × Argument))
  | [] => .ok []
  | t :: ts =>
    if t = ['-', '-'] then .ok ((t, .endMark) :: ts.map fun t => (t, .plain))
    else do
      let argument ← classify t
      let rest ← classifyAll ts
      return (t, argument) :: rest

/-- What the arguments ask for. -/
structure Choices where
  /-- The command line to run, if one is given. -/
  command : Option Text
  /-- Whether every verb with a `=` is an assignment. -/
  loose : Bool
  /-- How often more logging is asked for. -/
  verbosity : Nat
  deriving DecidableEq, Repr

/-- Why the arguments lead to no session. -/
inductive Stop where
  /-- The help is asked for. -/
  | help
  /-- The arguments are refused. -/
  | usage (e : UsageError)
  deriving DecidableEq, Repr

/-- Takes apart an option and the letters written behind its short spelling: the options with
their values, and the last option if it has no value in this argument. Behind an option that takes
no value each letter has to be a short option; behind one that takes a value the letters are it. -/
def cluster (f : Flag) (letters : Text) : Except UsageError (List (Flag × Text) × Option Flag) :=
  if f.takesValue then .ok ([(f, letters)], none)
  else
    match letters with
    | [] => .error (.needlessValue f [])
    | c :: cs =>
      match Flag.ofSpelling? ['-', c] with
      | none => .error (.needlessValue f (c :: cs))
      | some g =>
        if cs.isEmpty then .ok ([(f, [])], some g)
        else (cluster g cs).map fun (done, last) => ((f, []) :: done, last)

/-- Takes apart an argument that is an option: the options in it with their values, and the last
option if it has no value in this argument. Only a short spelling can be followed by further
options, and it makes no difference whether a `=` stands before them. -/
def takeApart (f : Flag) (short : Bool) (attached : Option Text) :
    Except UsageError (List (Flag × Text) × Option Flag) :=
  match attached with
  | none => .ok ([], some f)
  | some value =>
    if short || f.takesValue then cluster f value else .error (.needlessValue f value)

/-- The command line that a value gives: the value itself, but none of it is left where it is the
mark behind which there are no options. -/
def lineOfValue (value : Text) : Text :=
  if value = ['-', '-'] then [] else value

/-- Carries out options in their order; the help stops everything. -/
def applyFlags (c : Choices) : List (Flag × Text) → Except Stop Choices
  | [] => .ok c
  | (.help, _) :: _ => .error .help
  | (.command, value) :: rest => applyFlags { c with command := some (lineOfValue value) } rest
  | (.loose, _) :: rest => applyFlags { c with loose := true } rest
  | (.verbose, _) :: rest => applyFlags { c with verbosity := c.verbosity + 1 } rest

/-- Carries out the arguments in their order; `extra` holds those that mean nothing. An option
without a value in its own argument takes the next one, if that is no option. -/
def choose (c : Choices) (extra : List Text) :
    List (Text × Argument) → Except Stop (Choices × List Text)
  | [] => .ok (c, extra)
  | (t, .plain) :: rest => choose c (extra ++ [t]) rest
  | (t, .endMark) :: rest => choose c (extra ++ [t]) rest
  | (t, .unknown) :: rest => choose c (extra ++ [t]) rest
  | (_, .flag f short attached) :: rest =>
    match takeApart f short attached with
    | .error e => .error (.usage e)
    | .ok (done, none) => do
      let c ← applyFlags c done
      choose c extra rest
    | .ok (done, some g) =>
      if g.takesValue then
        match rest with
        | (value, .plain) :: rest => do
          let c ← applyFlags c (done ++ [(g, value)])
          choose c extra rest
        | _ => .error (.usage (.noValue g))
      else do
        let c ← applyFlags c (done ++ [(g, [])])
        choose c extra rest

/-- Reads the arguments of the command line. -/
def readArguments (arguments : List Text) : Except Stop Choices :=
  match classifyAll arguments with
  | .error e => .error (.usage e)
  | .ok classified =>
    match choose ⟨none, false, 0⟩ [] classified with
    | .error stop => .error stop
    | .ok (c, []) => .ok c
    | .ok (_, extra) => .error (.usage (.unrecognized extra))

/-- How the program is called. -/
def usageText : Text :=
  "usage: tree_shell [-h] [-c COMMAND] [--loose-assignments] [-v]\n".toList

/-- What the help shows. -/
def helpText : Text :=
  usageText ++ ("\nExecute command lines joined by ; && || | and &\n\noptions:\n" ++
    "  -h, --help           show this help message and exit\n" ++
    "  -c COMMAND           Command line to execute\n" ++
    "  --loose-assignments  Treat any verb containing '=' as an assignment\n" ++
    "  -v, --verbose        More logging (-v info, -vv debug)\n").toList

end LineShell
