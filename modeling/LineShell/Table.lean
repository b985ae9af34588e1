import LineShell.Text.Quoted

/-!
# The variable table

The names and values that a session owns: assignments and `cd` write to it, words are expanded
from it, and programs receive it as their environment. Entries keep the order in which their names
were first set.

## The model

A `Table` is a list of pairs in which `set` never makes a second entry for a name. It is seen
through `get?`, whose laws are all that later modules use: a name that was set has the new value
(`Table.get?_set_self`), and no other name changes (`Table.get?_set_of_ne`).

`splitAssignment` cuts a text at its first `=`. A verb counts as an assignment by one of two rules
(`isAssignment`): the strict one wants a plain name of ASCII letters, digits and underscores in
front of the `=`, the loose one is content with an `=` anywhere. `Table.assign` installs what was
split and tells the pair that it stored. It checks no name, so under the loose rule a table can
hold names that no program can be given.
-/

namespace LineShell

/-- A variable table: names with their values, oldest name first. -/
abbrev Table := List (Text × Text)

namespace Table

/-- The value of a name, if it is set. -/
def get? (t : Table) (name : Text) : Option Text :=
  (t.find? fun e => e.1 == name).map (·.2)

/-- Whether a name is set. -/
def contains (t : Table) (name : Text) : Bool :=
  t.any fun e => e.1 == name

/-- The table with a name bound: in its old place if it was set, else at the end. -/
def set : Table → Text → Text → Table
  | [], name, value => [(name, value)]
  | e :: es, name, value =>
    if e.1 == name then (name, value) :: es else e :: set es name value

/-- The value that a name expands to: nothing if it is not set. -/
def expansion (t : Table) (name : Text) : Text :=
  (t.get? name).getD []

/-- How a table is shown: by its size alone. -/
def shown (t : Table) : Text :=
  "ShellEnvironment(".toList ++ natText t.length ++ " variables)".toList

/-! ### Laws of the view `get?` -/

@[simp] theorem get?_nil (name : Text) : get? [] name = none := rfl

/-- A name that was set has the new value. -/
@[simp] theorem get?_set_self (t : Table) (name value : Text) :
    (t.set name value).get? name = some value := by
  induction t with
  | nil => simp [set, get?]
  | cons e es ih =>
    unfold set
    split
    · simp [get?]
    · next h =>
      have h' : ¬ e.1 = name := by simpa using h
      simpa [get?, h'] using ih

/-- No other name changes. -/
theorem get?_set_of_ne (t : Table) {name other : Text} (value : Text) (h : other ≠ name) :
    (t.set name value).get? other = t.get? other := by
  induction t with
  | nil => simp [set, get?, Ne.symm h]
  | cons e es ih =>
    unfold set
    split
    · next he =>
      have he' : e.1 = name := by simpa using he
      simp [get?, he', Ne.symm h]
    · by_cases ho : e.1 = other
      · simp [get?, ho]
      · simpa [get?, ho] using ih

/-- A name is contained exactly if it has a value. -/
theorem contains_iff (t : Table) (name : Text) :
    t.contains name = true ↔ (t.get? name).isSome = true := by
  simp [contains, get?]

end Table

/-! ### Assignments -/

/-- Splits a text at its first `=`: the name before it, the value after it. -/
def splitAssignment (t : Text) : Option (Text × Text) :=
  match t.dropWhile (· ≠ '=') with
  | [] => none
  | _ :: value => some (t.takeWhile (· ≠ '='), value)

/-- An ASCII letter or an underscore. -/
def isPlainStart (c : Char) : Bool :=
  c.isAlpha || c == '_'

/-- An ASCII letter, digit or underscore. -/
def isPlainChar (c : Char) : Bool :=
  c.isAlphanum || c == '_'

/-- A name that the strict rule accepts: ASCII letters, digits and underscores, with no digit
in front. -/
def isPlainName : Text → Bool
  | [] => false
  | c :: cs => isPlainStart c && cs.all isPlainChar

/-- Whether a verb is an assignment. The strict rule wants a plain name before the first `=`;
the loose rule is content with an `=` anywhere. -/
def isAssignment (strict : Bool) (verb : Text) : Bool :=
  match splitAssignment verb with
  | none => false
  | some (name, _) => !strict || isPlainName name

/-- An assignment needs an `=`. -/
structure NotAssignment where
  /-- The text that holds none. -/
  text : Text

/-- What is said of a text that is no assignment. -/
def NotAssignment.message (e : NotAssignment) : Text :=
  "Not an assignment: ".toList ++ quoted e.text

/-- Installs `NAME=VALUE`, splitting at the first `=`; gives the table and the pair stored. -/
def Table.assign (t : Table) (text : Text) : Except NotAssignment (Table × Text × Text) :=
  match splitAssignment text with
  | none => .error ⟨text⟩
  | some (name, value) => .ok (t.set name value, name, value)

end LineShell
