import LineShell.Command

/-!
# Command trees

What a line means: simple commands joined by control operators. A node may carry a mark; two
places of a tree that carry one mark are the same node, reached twice. Nodes that are made once
and used once carry none.

## The model

There are three kinds of node. A leaf holds a command and a pair joins two trees by one of the
five operators. A bare node is neither: such a node can be made and built into a tree, and fails
where it is to be run. Every line leads to a tree of leaves and unmarked pairs; marks and bare
nodes are there for trees that are built by hand.

The order of binding is told by `Operator.level`: a pipe binds most tightly, then the two
conditionals alike, then `&`, then `;`. `Tree.shown` and `Tree.outline` are what messages and
listings show.
-/

namespace LineShell

/-- How two commands are joined. -/
inductive Operator where
  /-- One after the other: `;`. -/
  | sequential
  /-- Both at once: `&`. -/
  | parallel
  /-- The right one if the left one succeeds: `&&`. -/
  | conditionalAnd
  /-- The right one if the left one fails: `||`. -/
  | conditionalOr
  /-- The output of the left one is the input of the right one: `|`. -/
  | pipe
  deriving DecidableEq, Repr

namespace Operator

/-- All operators. -/
def all : List Operator :=
  [.sequential, .parallel, .conditionalAnd, .conditionalOr, .pipe]

/-- The operator as it is written between commands. -/
def symbol : Operator → Text
  | .sequential => [';']
  | .parallel => ['&']
  | .conditionalAnd => ['&', '&']
  | .conditionalOr => ['|', '|']
  | .pipe => ['|']

/-- The operator's name. -/
def name : Operator → Text
  | .sequential => "SEQUENTIAL".toList
  | .parallel => "PARALLEL".toList
  | .conditionalAnd => "CONDITIONAL_AND".toList
  | .conditionalOr => "CONDITIONAL_OR".toList
  | .pipe => "PIPE".toList

/-- The operator's number; leaves of a tree have number 1. -/
def number : Operator → Nat
  | .sequential => 2
  | .parallel => 3
  | .conditionalAnd => 4
  | .conditionalOr => 5
  | .pipe => 6

/-- The operator as a message shows it, by name and number. -/
def shown (op : Operator) : Text :=
  "<Operator.".toList ++ op.name ++ ": ".toList ++ natText op.number ++ ">".toList

/-- How tightly the operator binds. The two conditionals bind alike. -/
def level : Operator → Nat
  | .sequential => 0
  | .parallel => 1
  | .conditionalAnd => 2
  | .conditionalOr => 2
  | .pipe => 3

end Operator

/-- A command tree. -/
inductive Tree where
  /-- A simple command. -/
  | leaf (mark : Option Nat) (command : Command)
  /-- Two trees joined by an operator. -/
  | binary (mark : Option Nat) (op : Operator) (left right : Tree)
  /-- A node that is neither: it can be built into a tree but not run. -/
  | bare (mark : Option Nat)
  deriving DecidableEq, Repr

/-- How the type of a bare node is named. -/
def bareTypeName : Text := "<class 'tree_shell.command_tree.CommandNode'>".toList

namespace Tree

/-- The mark of the root. -/
def mark : Tree → Option Nat
  | .leaf m _ => m
  | .binary m _ _ _ => m
  | .bare m => m

/-- The commands of a tree from left to right. -/
def leaves : Tree → List Command
  | .leaf _ c => [c]
  | .binary _ _ l r => leaves l ++ leaves r
  | .bare _ => []

/-- The tree on one line, every pair of sides in parentheses. -/
def shown : Tree → Text
  | .leaf _ c => "Cmd(".toList ++ c.shown ++ ")".toList
  | .binary _ op l r =>
    ['('] ++ shown l ++ [' '] ++ op.symbol ++ [' '] ++ shown r ++ [')']
  | .bare _ => "<tree_shell.command_tree.CommandNode object>".toList

/-- The tree as an outline, each side of a pair two spaces further in. -/
def outline (indent : Int) : Tree → Text
  | .leaf _ c => margin indent ++ "Leaf: ".toList ++ c.shown
  | .binary _ op l r =>
    margin indent ++ op.name ++ " (".toList ++ op.symbol ++ "):\n".toList
      ++ outline (indent + 1) l ++ ['\n'] ++ outline (indent + 1) r
  | .bare _ => margin indent ++ "Unknown node: ".toList ++ bareTypeName
where
  /-- Two spaces for each level; a negative level has none. -/
  margin (indent : Int) : Text := List.replicate (2 * indent.toNat) ' '

end Tree

end LineShell
