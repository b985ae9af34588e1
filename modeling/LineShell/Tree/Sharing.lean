import LineShell.Tree

/-!
# The sharing check

A walk over a tree that stops at the first node reached twice. It goes no further than that node,
however large the rest of the tree may be.

The marks met so far are handed from node to node, the root before its left side and the left side
before the right one. A node without a mark is always new. A node whose mark was met before is the
answer of the walk (`Tree.firstShared`), and its own sides are not looked at. What it takes for a
tree to pass, and how far the walk goes in one that does not, is proved elsewhere of this walk
itself.
-/

namespace LineShell

namespace Tree

/-- Meets a node on the walk: a new mark is noted, a known one stops the walk, and a node without
a mark is always new. -/
def meet (seen : List Nat) (t : Tree) : Except Tree (List Nat) :=
  match t.mark with
  | none => .ok seen
  | some m => if seen.contains m then .error t else .ok (m :: seen)

/-- Walks the tree from the root, left side before right side, with the marks met so far; gives
the marks met in the end. Stops at the first node whose mark was met before. -/
def marksAfter (seen : List Nat) : Tree → Except Tree (List Nat)
  | .leaf m c => meet seen (.leaf m c)
  | .bare m => meet seen (.bare m)
  | .binary m op l r => do
    let seen ← meet seen (.binary m op l r)
    let seen ← marksAfter seen l
    marksAfter seen r

/-- The first node in the walk that was reached before. -/
def firstShared (t : Tree) : Option Tree :=
  match marksAfter [] t with
  | .ok _ => none
  | .error shared => some shared

end Tree

end LineShell
