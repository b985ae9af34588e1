import LineShell.Kernel.Errno
import LineShell.Kernel.Program
import LineShell.Text.Bytes

/-!
# The file tree

Directories, files with their contents and modes, and the walk along a path. Nothing is ever
removed or renamed, so a place, the list of names from the root, is as good as the file itself.

## The model

* A `Node` is a directory, a file or the null device. A file may be an installed program; what it
  does is then told by that program and not by what it holds.
* `FileTree.walk` follows the names of a path. Before each name the current node must be a
  directory, and one that may be walked through. The names `.` and `..` mean what they usually do,
  and an empty name, as between two slashes or behind the last one, stays where it is but wants a
  directory.
* `FileTree.newPlace` is where a path that names nothing yet would make a file.

There are no links, owners or further devices. Modes hold three permissions and not nine, since
all processes belong to one user.

The last section builds trees and is used where a machine is set up.
-/

namespace LineShell

/-- What a mode allows. -/
structure Mode where
  /-- Reading, or listing. -/
  read : Bool
  /-- Writing, or adding names. -/
  write : Bool
  /-- Running, or walking through. -/
  pass : Bool
  deriving DecidableEq, Repr

namespace Mode

/-- The mode written with the letters `r`, `w` and `x`. -/
def ofLetters (t : Text) : Mode :=
  ⟨t.contains 'r', t.contains 'w', t.contains 'x'⟩

/-- The mode of directories unless another one is given. -/
def directory : Mode := ⟨true, true, true⟩

/-- The mode of files unless another one is given. -/
def plain : Mode := ⟨true, true, false⟩

/-- The mode of installed programs. -/
def program : Mode := ⟨true, false, true⟩

end Mode

/-- What stands at a place. -/
inductive Node where
  /-- A directory. -/
  | directory (mode : Mode)
  /-- A file: its contents, and the program that it is, if it is one. -/
  | file (mode : Mode) (data : Bytes) (program : Option Program)
  /-- The device that reads as empty and swallows what is written. -/
  | null
  deriving DecidableEq, Repr

/-- The mode of a node. -/
def Node.mode : Node → Mode
  | .directory mode => mode
  | .file mode _ _ => mode
  | .null => .plain

/-- A place in the tree: the names on the way from the root. -/
abbrev Place := List Text

/-- The absolute path of a place. -/
def Place.path : Place → Text
  | [] => ['/']
  | names => names.flatMap ('/' :: ·)

/-- A file tree: places with what stands there. -/
abbrev FileTree := List (Place × Node)

namespace FileTree

/-- The tree that holds the root alone. -/
def root : FileTree := [([], .directory .directory)]

/-- What stands at a place. -/
def node? (t : FileTree) (place : Place) : Option Node :=
  (t.find? fun e => e.1 == place).map (·.2)

/-- The tree with a node put at a place, instead of what stood there. -/
def put : FileTree → Place → Node → FileTree
  | [], place, node => [(place, node)]
  | e :: es, place, node =>
    if e.1 == place then (place, node) :: es else e :: put es place node

/-- The longest name, in bytes. -/
def longestName : Nat := 255

/-- Walks from a place along the names of a path. Before each name the current node must be a
directory. An empty name stays there; any other needs a directory that may be walked through. -/
def walk (t : FileTree) (here : Place) : List Text → Except Errno Place
  | [] => .ok here
  | name :: names =>
    match t.node? here with
    | some (.directory mode) =>
      if name = [] then walk t here names
      else if !mode.pass then .error .accessDenied
      else if longestName < (encode name).length then .error .nameTooLong
      else if name = ['.'] then walk t here names
      else if name = ['.', '.'] then walk t here.dropLast names
      else if (t.node? (here ++ [name])).isSome then walk t (here ++ [name]) names
      else .error .noEntry
    | some _ => .error .notDirectory
    | none => .error .noEntry

/-- The place that a path names, seen from a working directory. -/
def resolve (t : FileTree) (cwd : Place) (path : Text) : Except Errno Place :=
  if path = [] then .error .noEntry
  else walk t (if path.head? = some '/' then [] else cwd) (splitAt '/' path)

/-- The directory part of a path, up to and with its last slash, and the name behind it. -/
def splitName (path : Text) : Text × Text :=
  let name := (path.reverse.takeWhile (· ≠ '/')).reverse
  let directory := path.take (path.length - name.length)
  (if directory = [] then ['.'] else directory, name)

/-- The place at which a path that names nothing yet would make a new file. -/
def newPlace (t : FileTree) (cwd : Place) (path : Text) : Except Errno Place :=
  if path = [] then .error .noEntry
  else if path.getLast? = some '/' then .error .isDirectory
  else
    match t.resolve cwd (splitName path).1 with
    | .error e => .error e
    | .ok directory =>
      match t.node? directory with
      | some (.directory mode) =>
        if mode.write then .ok (directory ++ [(splitName path).2]) else .error .accessDenied
      | some _ => .error .notDirectory
      | none => .error .noEntry

/-- The files that are no programs, with their contents. -/
def plainFiles (t : FileTree) : List (Place × Bytes) :=
  t.filterMap fun
    | (place, .file _ data none) => some (place, data)
    | _ => none

/-! ### Building a tree -/

/-- The names in an absolute path. -/
def placeOf (path : Text) : Place :=
  (splitAt '/' path).filter (!·.isEmpty)

/-- The tree with directories at every place on the way to one, where nothing stood. -/
def withParents (t : FileTree) (place : Place) : FileTree :=
  (List.range place.length).foldl
    (fun t n => if (t.node? (place.take n)).isSome then t
      else t.put (place.take n) (.directory .directory)) t

/-- The tree with a node at a place, directories on the way to it included. -/
def install (t : FileTree) (place : Place) (node : Node) : FileTree :=
  (t.withParents place).put place node

/-- The tree with a directory at a place, unless something stands there. -/
def makeDirectory (t : FileTree) (place : Place) : FileTree :=
  if (t.node? place).isSome then t else t.install place (.directory .directory)

/-- The tree with another mode for a directory. -/
def setDirectoryMode (t : FileTree) (place : Place) (mode : Mode) : FileTree :=
  match t.node? place with
  | some (.file _ _ _) => t
  | _ => t.install place (.directory mode)

end FileTree

end LineShell
