import LineShell.Word

/-!
# Simple commands

A verb with its arguments, and the files that its three standard streams are bound to. All texts
in it are words, which are expanded when the command is run. Standard input is bound by the name
of a file alone; standard output and standard error by a `Redirect`, which also says whether the
file is emptied first or written at its end. A stream has one redirect at most: of several in a
command the last one counts, and both streams may name one file.

`Command.shown` writes a command for messages and listings, its redirects behind its words.
-/

namespace LineShell

/-- Where an output stream goes: a file, emptied first or written at its end. -/
structure Redirect where
  /-- The file. -/
  target : Word
  /-- Whether what the file holds is kept. -/
  append : Bool
  deriving DecidableEq, Repr

/-- The redirect as it is shown. -/
def Redirect.shown (r : Redirect) : Text :=
  (if r.append then ['>', '>'] else ['>']) ++ r.target.shown

/-- One program, or built-in, with its arguments and redirects. -/
structure Command where
  /-- What is to run. -/
  verb : Word
  /-- Its arguments. -/
  args : List Word
  /-- The file read instead of standard input. -/
  input : Option Word
  /-- Where standard output goes. -/
  output : Option Redirect
  /-- Where standard error goes. -/
  errors : Option Redirect
  deriving DecidableEq, Repr

namespace Command

/-- The argument vector: the verb, then the arguments. -/
def argv (c : Command) (table : Table) : List Text :=
  c.verb.expand table :: c.args.map (·.expand table)

/-- The command as it is shown: words, then redirects. -/
def shown (c : Command) : Text :=
  joinWith [' '] <|
    c.verb.shown :: c.args.map Word.shown
      ++ (c.input.map fun w => '<' :: w.shown).toList
      ++ (c.output.map Redirect.shown).toList
      ++ (c.errors.map fun r => '2' :: r.shown).toList

end Command

end LineShell
