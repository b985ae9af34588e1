import LineShell.Proofs.Reports

/-!
# What stands around a node

A node is run by whichever process comes to it: the running process, or a child that was made for
a side of a pipe or of a parallel pair above the node. Here a tree is taken apart into one of its
nodes and the context around it. The run of the tree depends on the node only by what the node
comes to in the machine in which it begins, so nothing around a node can tell why it answered as
it did.

## The model

* `BeginsLeft` and `BeginsRight` give the machine in which a side of a pair begins, if it does:
  that of the pair, or that of a child, for a pipe behind the binding of its stream.
* A `Context` is a tree with a hole, and `Context.run` runs it with any action in the place of the
  hole.
* `Reaches` says that the node in a hole begins at a certain depth and in a certain machine, where
  the tree is run at a depth and from a machine on. A node that is skipped is not reached.

## What is proved

* To run a tree is to run its context with what the node does (`Context.run_execute`).
* The run of a pair depends on a side only by what that comes to where it begins
  (`BeginsLeft.combine_congr`, `BeginsRight.combine_congr`), and so the run of a tree on a node
  (`Reaches.execute_eq`). The induction goes down from the whole tree to the node.

So a failure with a cause in the system and one that the command itself answers with have the same
consequences, which is how other modules speak of what a refused call means for the tree.
-/

namespace LineShell

open Act

/-! ### Sides -/

/-- The machine in which the left side of a pair begins that is run from `m` on: `m` itself, or that of
a child, behind the binding of its stream in a pipe. -/
inductive BeginsLeft (a : Act Status) (m : Machine) : Operator → Machine → Prop where
  /-- The left side of a serial pair. -/
  | serial {op : Operator} (hop : op.forks = false) : BeginsLeft a m op m
  /-- The left side of a pipe. -/
  | pipe {r w raw : Nat} {m₁ m₂ k : Machine} (hc : createChannel m = .ok (r, w) m₁)
      (hs : Spawned (pipeSide a w 1 r w) raw m₁ m₂)
      (hb : bindStream w 1 [r, w] m₁.born = .ok () k) : BeginsLeft a m .pipe k
  /-- The left side of a parallel pair. -/
  | parallel {raw : Nat} {m₁ : Machine} (hs : Spawned (sideWork a) raw m m₁) :
      BeginsLeft a m .parallel m.born

/-- The machine in which the right side of a pair begins that is run from `m` on. -/
inductive BeginsRight (a b : Act Status) (m : Machine) : Operator → Machine → Prop where
  /-- The right side of a serial pair, where the number of the left one has it run. -/
  | serial {op : Operator} {number : Int} {m₁ : Machine} (hop : op.forks = false)
      (hl : a m = .ok (.code number) m₁) (hgo : op.admits number = true) : BeginsRight a b m op m₁
  /-- The right side of a pipe. -/
  | pipe {k : Machine} (hruns : PipeRuns a b m k) : BeginsRight a b m .pipe k
  /-- The right side of a parallel pair. -/
  | parallel {n : Machine} (hruns : ParallelRuns a b m n) : BeginsRight a b m .parallel n.born

section Sides

variable {a b c : Act Status} {m n : Machine} {op : Operator}

theorem sideWork_congr (h : a m = c m) : sideWork a m = sideWork c m := bind_left_congr h

theorem pipeSide_congr {fd standard r w : Nat} {k : Machine}
    (hbind : bindStream fd standard [r, w] m = .ok () k) (h : a k = c k) :
    pipeSide a fd standard r w m = pipeSide c fd standard r w m := by
  unfold pipeSide
  rw [bind_eq, bind_eq, hbind]
  exact sideWork_congr h

theorem spawnAll_congr_left {x x' : Act ChildEnd} (h : spawn x m = spawn x' m)
    (works : List (Act ChildEnd)) : spawnAll (x :: works) m = spawnAll (x' :: works) m := by
  rw [spawnAll_cons, spawnAll_cons, h]

theorem spawnAll_congr_right {x y y' : Act ChildEnd} {pid : Nat} (hx : spawn x m = .ok pid n)
    (h : spawn y n = spawn y' n) : spawnAll [x, y] m = spawnAll [x, y'] m := by
  rw [spawnAll_cons, spawnAll_cons, hx]
  exact bind_left_congr (spawnAll_congr_left h [])

/-- Once it has its channel, what a pipe does is told by the children that it makes. -/
theorem piped_congr {r w : Nat} {a' b' : Act Status} (hc : createChannel m = .ok (r, w) n)
    (h : spawnAll [pipeSide a w 1 r w, pipeSide b r 0 r w] n
      = spawnAll [pipeSide a' w 1 r w, pipeSide b' r 0 r w] n) : piped a b m = piped a' b' m := by
  unfold piped
  rw [bind_eq, bind_eq, attempt_of_ok hc]
  exact bind_left_congr h

/-- The run of a pair depends on its left side only by what that comes to where it begins. -/
theorem BeginsLeft.combine_congr (hbegins : BeginsLeft a m op n) (h : a n = c n) :
    combine op a b m = combine op c b m := by
  cases hbegins with
  | serial hop =>
    rw [combine_of_serial hop, combine_of_serial hop]
    exact bind_left_congr h
  | pipe hc hs hb =>
    exact piped_congr hc (spawnAll_congr_left (spawn_congr (pipeSide_congr hb h)) _)
  | parallel hs =>
    exact bind_left_congr (spawnAll_congr_left (spawn_congr (sideWork_congr h)) _)

/-- The run of a pair depends on its right side only by what that comes to where it begins. -/
theorem BeginsRight.combine_congr (hbegins : BeginsRight a b m op n) (h : b n = c n) :
    combine op a b m = combine op a c m := by
  cases hbegins with
  | serial hop hl hgo =>
    rw [combine_of_serial hop, combine_of_serial hop, bind_eq, bind_eq, hl]
    simpa [hgo] using h
  | pipe hruns =>
    obtain ⟨r, w, m₁, m₂, m₃, raw, hc, ⟨hsx, -⟩, -, hb⟩ := hruns
    exact piped_congr hc (spawnAll_congr_right hsx (spawn_congr (pipeSide_congr hb h)))
  | parallel hruns =>
    obtain ⟨⟨hsx, -⟩, -⟩ := hruns
    exact bind_left_congr (spawnAll_congr_right hsx (spawn_congr (sideWork_congr h)))

end Sides

/-! ### Contexts -/

/-- A tree with a hole in the place of one of its nodes. -/
inductive Context where
  /-- There is nothing around the hole. -/
  | hole
  /-- The hole is in the left side of a pair. -/
  | left (mark : Option Nat) (op : Operator) (around : Context) (r : Tree)
  /-- The hole is in the right side of a pair. -/
  | right (mark : Option Nat) (op : Operator) (l : Tree) (around : Context)

namespace Context

/-- The tree with a node in the hole. -/
def fill (t : Tree) : Context → Tree
  | .hole => t
  | .left mark op around r => .binary mark op (around.fill t) r
  | .right mark op l around => .binary mark op l (around.fill t)

/-- Runs a tree as it is run, but for one of its nodes: that does what it is told to do at its
depth. -/
def run (rules : Rules) (t : Tree) (a : Int → Act Status) : Context → Int → Act Status
  | .hole, level => a level
  | .left mark op around r, level =>
    rules.runNode mark op (around.fill t) r level (around.run rules t a (level + 1))
      (execute rules r (level + 1))
  | .right mark op l around, level =>
    rules.runNode mark op l (around.fill t) level (execute rules l (level + 1))
      (around.run rules t a (level + 1))

/-- To run a tree is to have its node do what it does. -/
theorem run_execute (rules : Rules) (t : Tree) (around : Context) (level : Int) :
    around.run rules t (execute rules t) level = execute rules (around.fill t) level := by
  induction around generalizing level with
  | hole => rfl
  | left mark op around r ih =>
    rw [run, ih]
    rfl
  | right mark op l around ih =>
    rw [run, ih]
    rfl

end Context

/-- A node in a context begins at a depth and in a machine, where the whole tree is run at a depth and
from a machine on. -/
inductive Reaches (rules : Rules) (t : Tree) : Context → Int → Machine → Int → Machine → Prop where
  /-- The node is all of the tree. -/
  | hole (level : Int) (m : Machine) : Reaches rules t .hole level m level m
  /-- The node is in the left side. -/
  | left {mark : Option Nat} {op : Operator} {around : Context} {r : Tree} {level k : Int}
      {m m₁ n : Machine} (hadmits : rules.Admits op (.binary mark op (around.fill t) r) level)
      (hbegins : BeginsLeft (execute rules (around.fill t) (level + 1))
        ((Tree.binary mark op (around.fill t) r).told level m) op m₁)
      (h : Reaches rules t around (level + 1) m₁ k n) :
      Reaches rules t (.left mark op around r) level m k n
  /-- The node is in the right side. -/
  | right {mark : Option Nat} {op : Operator} {l : Tree} {around : Context} {level k : Int}
      {m m₁ n : Machine} (hadmits : rules.Admits op (.binary mark op l (around.fill t)) level)
      (hbegins : BeginsRight (execute rules l (level + 1)) (execute rules (around.fill t) (level + 1))
        ((Tree.binary mark op l (around.fill t)).told level m) op m₁)
      (h : Reaches rules t around (level + 1) m₁ k n) :
      Reaches rules t (.right mark op l around) level m k n

/-- A node that is the left side of a serial pair begins where the pair does. -/
theorem Reaches.left_serial {rules : Rules} {t r : Tree} {mark : Option Nat} {op : Operator}
    {level k : Int} {m n : Machine} (hop : op.forks = false)
    (h : Reaches rules t (.left mark op .hole r) level m k n) :
    rules.Admits op (.binary mark op t r) level ∧ k = level + 1 ∧
      n = (Tree.binary mark op t r).told level m := by
  cases h with
  | left hadmits hbegins hhole =>
    cases hhole with
    | hole =>
      cases hbegins with
      | serial _ => exact ⟨hadmits, rfl, rfl⟩
      | pipe _ _ _ => exact nomatch hop
      | parallel _ => exact nomatch hop

/-- The run of a tree depends on a node only by what that comes to where it begins: it is as if the
node did nothing but to come to that. The induction goes down from the whole tree to the node. -/
theorem Reaches.execute_eq {rules : Rules} {t : Tree} {around : Context} {level k : Int}
    {m n : Machine} (h : Reaches rules t around level m k n) :
    execute rules (around.fill t) level m
      = around.run rules t (fun _ _ => execute rules t k n) level m := by
  induction h with
  | hole level m => rfl
  | @left mark op around r level k m m₁ n hadmits hbegins h ih =>
    show execute rules (.binary mark op (around.fill t) r) level m
      = rules.runNode mark op (around.fill t) r level
        (around.run rules t (fun _ _ => execute rules t k n) (level + 1)) (execute rules r (level + 1)) m
    rw [runNode_of_admits hadmits, execute_of_admits hadmits]
    exact bind_left_congr (hbegins.combine_congr ih)
  | @right mark op l around level k m m₁ n hadmits hbegins h ih =>
    show execute rules (.binary mark op l (around.fill t)) level m
      = rules.runNode mark op l (around.fill t) level (execute rules l (level + 1))
        (around.run rules t (fun _ _ => execute rules t k n) (level + 1)) m
    rw [runNode_of_admits hadmits, execute_of_admits hadmits]
    exact bind_left_congr (hbegins.combine_congr ih)

end LineShell
