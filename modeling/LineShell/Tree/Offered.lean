import LineShell.Tree.Sharing

/-!
# What is offered as a tree

Values that may or may not be trees, the construction of pairs from them, and what is wrong with
those that are refused.

A tree that is built by hand is built from values of any kind. `Tree.pair` joins two of them and
refuses an operator that joins nothing and sides that are no trees. `Offered.validate` is the
check that comes before a tree is run: the value must be a tree, and no node of it may be reached
twice. `TreeError.message` says which of these it is; it shows the operator or names the type of
the value that was given.
-/

namespace LineShell

/-- A value that is offered where a tree is expected. -/
inductive Offered where
  /-- A tree. -/
  | node (t : Tree)
  /-- A text, which is no tree. -/
  | text (t : Text)
  /-- Nothing at all. -/
  | nothing
  deriving DecidableEq, Repr

/-- The operator named at a pair's construction. -/
inductive OfferedOperator where
  /-- A control operator. -/
  | control (op : Operator)
  /-- The operator of leaves, which joins nothing. -/
  | leafOnly
  /-- A text that names no operator. -/
  | text (t : Text)
  deriving DecidableEq, Repr

/-- Reads the name of an operator. -/
def OfferedOperator.ofName (name : Text) : OfferedOperator :=
  if name = "NONE".toList then .leafOnly
  else
    match Operator.all.find? (fun op => op.name == name) with
    | some op => .control op
    | none => .text name

/-- What is wrong with a tree, or with a value offered as one. -/
inductive TreeError where
  /-- A pair needs a control operator. -/
  | noControl (given : OfferedOperator)
  /-- A pair needs two trees as its sides. -/
  | noSide
  /-- A value is no tree. -/
  | notANode (given : Offered)
  /-- A node is reached twice. -/
  | shared (node : Tree)
  deriving DecidableEq, Repr

namespace Offered

/-- The value as a message shows it. -/
def shown : Offered → Text
  | .node t => t.shown
  | .text t => quoted t
  | .nothing => "None".toList

/-- The name of the value's type, for one that cannot be run. -/
def typeName : Offered → Text
  | .node _ => bareTypeName
  | .text _ => "<class 'str'>".toList
  | .nothing => "<class 'NoneType'>".toList

/-- The value as an outline. -/
def outline (indent : Int) : Offered → Text
  | .node t => t.outline indent
  | o => Tree.outline.margin indent ++ "Unknown node: ".toList ++ o.typeName

/-- Accepts a tree in which no node is reached twice. -/
def validate : Offered → Except TreeError Tree
  | .node t =>
    match t.firstShared with
    | none => .ok t
    | some shared => .error (.shared shared)
  | o => .error (.notANode o)

end Offered

namespace OfferedOperator

/-- The operator as a message shows it. -/
def shown : OfferedOperator → Text
  | .control op => op.shown
  | .leafOnly => "<Operator.NONE: 1>".toList
  | .text t => quoted t

end OfferedOperator

/-- Joins two values by an operator: the operator must be a control operator, and both sides
must be trees. -/
def Tree.pair (mark : Option Nat) (op : OfferedOperator) (left right : Offered) :
    Except TreeError Tree :=
  match op, left, right with
  | .control op, .node l, .node r => .ok (.binary mark op l r)
  | .control _, _, _ => .error .noSide
  | op, _, _ => .error (.noControl op)

/-- What is said of a tree that is refused. -/
def TreeError.message : TreeError → Text
  | .noControl given => "Binary node needs a control operator, got ".toList ++ given.shown
  | .noSide => "Binary node needs two non-null CommandNode children".toList
  | .notANode given => "Not a command node: ".toList ++ given.shown
  | .shared node => "Node reachable more than once: ".toList ++ node.shown

end LineShell
