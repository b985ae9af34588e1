import LineShell.Table
import LineShell.Text.Upper

/-!
# Settings

What can be tuned in a session, and how the variables of the surrounding process tune it: whether
an assignment needs a plain name, the prompt, and the least weight of a record that is echoed. A
variable that is not set leaves the setting as it is. One of a few words switches the strict rule
for assignments off, whatever its case and the blanks around it, and any other text switches it
on.
-/

namespace LineShell

/-- The tunable parts of a session. -/
structure Settings where
  /-- Whether an assignment needs a plain name before its `=`. -/
  strictAssignments : Bool
  /-- What a terminal is shown before each line. -/
  prompt : Text
  /-- The name of the least level that is logged. -/
  logLevel : Text
  deriving DecidableEq, Repr

namespace Settings

/-- The settings where nothing is said. -/
def standard : Settings :=
  ⟨true, "$ ".toList, "WARNING".toList⟩

/-- The words that switch something off, in lower case. No character outside ASCII has one of
their letters as its lower case, so lowering ASCII letters alone decides alike. -/
def offWords : List Text :=
  ["0".toList, "false".toList, "no".toList, "off".toList]

/-- Whether a text switches something off. -/
def isOff (t : Text) : Bool :=
  offWords.contains ((trim t).map Char.toLower)

/-- The settings that an environment asks for. A variable that is not set changes nothing, nor
does an empty level. -/
def ofEnvironment (environment : Table) : Settings :=
  let strict := environment.get? "TREE_SHELL_STRICT_ASSIGNMENTS".toList
  let prompt := environment.get? "TREE_SHELL_PROMPT".toList
  let level := environment.get? "TREE_SHELL_LOG_LEVEL".toList
  { strictAssignments := (strict.map fun t => !isOff t).getD standard.strictAssignments
    prompt := prompt.getD standard.prompt
    logLevel := ((level.filter fun t => !t.isEmpty).map fun t => upper (trim t)).getD
      standard.logLevel }

end Settings

end LineShell
