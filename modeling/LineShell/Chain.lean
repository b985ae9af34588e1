import LineShell.Tree

/-!
# Chains

A line before it has a shape: commands in a row, an operator between any two. The tree of a chain
follows from how tightly its operators bind; operators that bind alike group to the left.

`Tree.attach` puts one more command at the right end of a tree. It goes down the right edge past
the nodes that bind less tightly than the operator and takes what it finds there as its left side.
`Chain.toTree` attaches one link after the other. Nothing of the row is lost in this: the commands
and operators of the tree from left to right are those of the chain (`Chain.toChain?_toTree`).
That the tree is also the one that a grammar with a rule for each level of binding gives is proved
where the grammar is defined.
-/

namespace LineShell

/-- A command, and further commands with the operator in front of each. -/
structure Chain where
  /-- The first command. -/
  first : Command
  /-- The others, from left to right. -/
  links : List (Operator × Command)
  deriving DecidableEq, Repr

namespace Tree

/-- Adds a command at the right end of a tree. The operator takes as its left side as much of
the right edge of the tree as does not bind more loosely than itself. -/
def attach (op : Operator) (c : Command) : Tree → Tree
  | .binary m o l r =>
    if o.level < op.level then .binary m o l (attach op c r)
    else .binary none op (.binary m o l r) (.leaf none c)
  | t => .binary none op t (.leaf none c)

/-- The commands and operators of a tree from left to right: its first command and its links. A
bare node has no command to begin with. -/
def toChain? : Tree → Option Chain
  | .leaf _ c => some ⟨c, []⟩
  | .binary _ op l r =>
    match toChain? l, toChain? r with
    | some a, some b => some ⟨a.first, a.links ++ (op, b.first) :: b.links⟩
    | _, _ => none
  | .bare _ => none

end Tree

/-- The tree of a chain. -/
def Chain.toTree (c : Chain) : Tree :=
  c.links.foldl (fun t (op, command) => t.attach op command) (.leaf none c.first)

namespace Tree

/-- Attaching a command adds one link at the end. -/
theorem toChain?_attach (op : Operator) (c : Command) (t : Tree) :
    (t.attach op c).toChain? = t.toChain?.map fun a => ⟨a.first, a.links ++ [(op, c)]⟩ := by
  induction t with
  | leaf => simp [attach, toChain?]
  | bare => simp [attach, toChain?]
  | binary m o l r _ ihr =>
    unfold attach
    split
    · simp only [toChain?, ihr]
      cases l.toChain? <;> cases r.toChain? <;> simp
    · simp only [toChain?]
      cases l.toChain? <;> cases r.toChain? <;> simp

end Tree

/-- The tree of a chain holds exactly its commands and operators, in their order. -/
theorem Chain.toChain?_toTree (c : Chain) : c.toTree.toChain? = some c := by
  have h : ∀ (links : List (Operator × Command)) (t : Tree) (a : Chain), t.toChain? = some a →
      (links.foldl (fun t (op, command) => t.attach op command) t).toChain?
        = some ⟨a.first, a.links ++ links⟩ := by
    intro links
    induction links with
    | nil => intro t a ht; simp [ht]
    | cons x xs ih =>
      intro t a ht
      have hx : (t.attach x.1 x.2).toChain? = some ⟨a.first, a.links ++ [x]⟩ := by
        simp [Tree.toChain?_attach, ht]
      simpa using ih _ _ hx
  simpa [toTree] using h c.links (.leaf none c.first) ⟨c.first, []⟩ rfl

end LineShell
