import LineShell.Proofs.PipeSides

/-!
# Which nodes a run comes to

The running process runs a node itself if only serial operators stand above it; any other node is
run by a child that was made for a side of a pipe or of a parallel pair, or by a child of such a
child. Whether a node is run at all is decided on the way: by the numbers that left sides end
with, by the end of the session, by calls that fail. Here the nodes that a run comes to are listed
in their order, each with the process that comes to it and with how many such sides it is in. The
list tells the same as the contexts in which nodes begin.

## The model

* `leftStart?` and `rightStart?` compute the machine in which a side of a pair begins, if it is
  run: for a serial operator from the status of the left side, for the others from the making of
  the children.
* A `Visit` is a node with the process that comes to it and the number of children between that
  process and the running one. `Tree.visits` lists them, a pair before its sides. Being computed,
  the list can be evaluated for a tree and a machine.
* `Visit.StandsFor` relates a visit to a context around its node and to the machine in which the
  node begins there.

## What is proved

* The sides of a pair begin where the contexts of the pair say (`leftStart?_eq_some`,
  `rightStart?_eq_some`).
* A visit stands for the whole tree or for a node of one of its sides (`Visit.StandsFor.cases`),
  and one that stands for a node of a side stands for it in the pair (`Visit.StandsFor.left`,
  `Visit.StandsFor.right`).
* The nodes that are listed are exactly those that begin in the run and are run there
  (`mem_visits_iff`), by induction on the tree.

A pair that is refused and a node without a command are not run, and no visit stands for them.
-/

namespace LineShell

open Act

/-! ### Where sides begin -/

/-- The machine in which a child begins its work, if one can be made. -/
def childStart? (work : Act ChildEnd) (m : Machine) : Option Machine :=
  (answer? (spawn work m)).map fun _ => m.born

/-- The machine in which a side of a pipe begins, if its stream can be bound. -/
def boundStart? (fd standard : Nat) (spare : List Nat) (m : Machine) : Option Machine :=
  (answer? (bindStream fd standard spare m)).map (·.2)

namespace Operator

/-- The machine in which the left side of a pair begins that is run from `m` on, if it is run. -/
def leftStart? (op : Operator) (a : Act Status) (m : Machine) : Option Machine :=
  match op with
  | .pipe => do
    let ((r, w), m₁) ← answer? (createChannel m)
    boundStart? w 1 [r, w] (← childStart? (pipeSide a w 1 r w) m₁)
  | .parallel => childStart? (sideWork a) m
  | _ => some m

/-- The machine in which the right side of a pair begins that is run from `m` on, if it is run. -/
def rightStart? (op : Operator) (a b : Act Status) (m : Machine) : Option Machine :=
  match op with
  | .pipe => do
    let ((r, w), m₁) ← answer? (createChannel m)
    let (_, m₂) ← answer? (spawn (pipeSide a w 1 r w) m₁)
    boundStart? r 0 [r, w] (← childStart? (pipeSide b r 0 r w) m₂)
  | .parallel => do
    let (_, m₁) ← answer? (spawn (sideWork a) m)
    childStart? (sideWork b) m₁
  | op =>
    match a m with
    | .ok (.code n) m₁ => if op.admits n then some m₁ else none
    | _ => none

end Operator

theorem answer?_eq_some {α : Type} {r : EStateM.Result Failure Machine α} {x : α} {m : Machine} :
    answer? r = some (x, m) ↔ r = .ok x m := by
  constructor
  · exact fun h => eq_ok_of_answer? h
  · rintro rfl
    rfl

/-- A child that is made lives to its end. -/
theorem spawned_of_ok {work : Act ChildEnd} {pid : Nat} {m m' : Machine}
    (h : spawn work m = .ok pid m') : ∃ raw, Spawned work raw m m' := by
  rcases spawn_cases work m with ⟨e, hs⟩ | ⟨raw, n, hs, hbirth⟩
  · cases h.symm.trans hs
  · obtain ⟨-, rfl⟩ := EStateM.Result.ok.inj (h.symm.trans hs)
    exact ⟨raw, hs, hbirth⟩

/-- A child whose stream is bound exits with the code of its side. -/
theorem Birth.raw_eq_of_bind {a : Act Status} {fd standard r w raw : Nat} {m m' k : Machine}
    (h : Birth (pipeSide a fd standard r w) raw m m')
    (hbind : bindStream fd standard [r, w] m.born = .ok () k) : raw = exitedRaw (sideCode (a k)) := by
  obtain ⟨dead, hlived, -⟩ := h
  rcases hlived.pipeSide_cases with ⟨k', hbind', hraw⟩ | ⟨⟨failure, k', hbind'⟩, -⟩
  · obtain ⟨-, rfl⟩ := EStateM.Result.ok.inj (hbind.symm.trans hbind')
    exact hraw
  · cases hbind.symm.trans hbind'

theorem childStart?_eq_some {work : Act ChildEnd} {m k : Machine} :
    childStart? work m = some k ↔ (∃ raw m', Spawned work raw m m') ∧ k = m.born := by
  rw [childStart?, Option.map_eq_some_iff]
  constructor
  · rintro ⟨⟨pid, m'⟩, hspawn, rfl⟩
    obtain ⟨raw, hs⟩ := spawned_of_ok (answer?_eq_some.1 hspawn)
    exact ⟨⟨raw, m', hs⟩, rfl⟩
  · rintro ⟨⟨raw, m', hs, -⟩, rfl⟩
    exact ⟨_, answer?_eq_some.2 hs, rfl⟩

theorem childStart?_of_ok {work : Act ChildEnd} {pid : Nat} {m m' : Machine}
    (h : spawn work m = .ok pid m') : childStart? work m = some m.born := by
  rw [childStart?, answer?_eq_some.2 h, Option.map_some]

theorem boundStart?_eq_some {fd standard : Nat} {spare : List Nat} {m k : Machine} :
    boundStart? fd standard spare m = some k ↔ bindStream fd standard spare m = .ok () k := by
  rw [boundStart?, Option.map_eq_some_iff]
  constructor
  · rintro ⟨⟨_, k'⟩, hb, rfl⟩
    exact answer?_eq_some.1 hb
  · intro hb
    exact ⟨_, answer?_eq_some.2 hb, rfl⟩

/-- Whether the sides of an operator run in children tells which operators it can be. -/
theorem Operator.forks_eq_true_iff {op : Operator} : op.forks = true ↔ op = .pipe ∨ op = .parallel := by
  cases op <;> decide

section Starts

variable {op : Operator} {a b : Act Status} {m k : Machine}

theorem leftStart?_of_serial (hop : op.forks = false) : op.leftStart? a m = some m := by
  cases op <;> first | rfl | exact absurd hop (by decide)

theorem rightStart?_of_serial (hop : op.forks = false) : op.rightStart? a b m =
    match a m with
    | .ok (.code n) m₁ => if op.admits n then some m₁ else none
    | _ => none := by
  cases op <;> first | rfl | exact absurd hop (by decide)

/-- Where both children of a pipe are made, each side begins if its stream can be bound. -/
theorem starts_of_pipe {m₁ m₂ m₃ : Machine} {r w p q : Nat} (hc : createChannel m = .ok (r, w) m₁)
    (hx : spawn (pipeSide a w 1 r w) m₁ = .ok p m₂) (hy : spawn (pipeSide b r 0 r w) m₂ = .ok q m₃) :
    Operator.pipe.leftStart? a m = boundStart? w 1 [r, w] m₁.born ∧
      Operator.pipe.rightStart? a b m = boundStart? r 0 [r, w] m₂.born := by
  simp only [Operator.leftStart?, Operator.rightStart?, Option.bind_eq_bind, answer?_eq_some.2 hc,
    Option.bind_some, answer?_eq_some.2 hx, childStart?_of_ok hx, childStart?_of_ok hy, and_self]

/-- Where both children of a parallel pair are made, both sides begin. -/
theorem starts_of_parallel {m₁ m₂ : Machine} {p q : Nat} (hx : spawn (sideWork a) m = .ok p m₁)
    (hy : spawn (sideWork b) m₁ = .ok q m₂) :
    Operator.parallel.leftStart? a m = some m.born ∧
      Operator.parallel.rightStart? a b m = some m₁.born := by
  simp only [Operator.leftStart?, Operator.rightStart?, Option.bind_eq_bind, Option.bind_some,
    answer?_eq_some.2 hx, childStart?_of_ok hx, childStart?_of_ok hy, and_self]

/-- The left side of a pair begins where its context says. -/
theorem leftStart?_eq_some : op.leftStart? a m = some k ↔ BeginsLeft a m op k := by
  constructor
  · intro h
    cases hop : op.forks with
    | false =>
      rw [leftStart?_of_serial hop] at h
      exact Option.some.inj h ▸ .serial hop
    | true =>
      rcases Operator.forks_eq_true_iff.1 hop with rfl | rfl
      · simp only [Operator.leftStart?, Option.bind_eq_bind, Option.bind_eq_some_iff] at h
        obtain ⟨⟨⟨r, w⟩, m₁⟩, hc, born, hstart, hb⟩ := h
        obtain ⟨⟨raw, m₂, hs⟩, rfl⟩ := childStart?_eq_some.1 hstart
        exact .pipe (answer?_eq_some.1 hc) hs (boundStart?_eq_some.1 hb)
      · obtain ⟨⟨raw, m₁, hs⟩, rfl⟩ := childStart?_eq_some.1 h
        exact .parallel hs
  · intro h
    cases h with
    | serial hop => exact leftStart?_of_serial hop
    | pipe hc hs hb =>
      simp only [Operator.leftStart?, Option.bind_eq_bind, Option.bind_eq_some_iff]
      exact ⟨_, answer?_eq_some.2 hc, _, childStart?_eq_some.2 ⟨⟨_, _, hs⟩, rfl⟩,
        boundStart?_eq_some.2 hb⟩
    | parallel hs => exact childStart?_eq_some.2 ⟨⟨_, _, hs⟩, rfl⟩

/-- The right side of a pair begins where its context says. -/
theorem rightStart?_eq_some : op.rightStart? a b m = some k ↔ BeginsRight a b m op k := by
  constructor
  · intro h
    cases hop : op.forks with
    | false =>
      rw [rightStart?_of_serial hop] at h
      split at h
      · next n m₁ hl =>
        split at h
        · next hgo => exact Option.some.inj h ▸ .serial hop hl hgo
        · cases h
      · cases h
    | true =>
      rcases Operator.forks_eq_true_iff.1 hop with rfl | rfl
      · simp only [Operator.rightStart?, Option.bind_eq_bind, Option.bind_eq_some_iff] at h
        obtain ⟨⟨⟨r, w⟩, m₁⟩, hc, ⟨pid, m₂⟩, hx, born, hstart, hb⟩ := h
        obtain ⟨⟨rawy, m₃, hy⟩, rfl⟩ := childStart?_eq_some.1 hstart
        obtain ⟨raw, hleft⟩ := spawned_of_ok (answer?_eq_some.1 hx)
        have hbind := boundStart?_eq_some.1 hb
        obtain rfl := hy.2.raw_eq_of_bind hbind
        exact .pipe ⟨r, w, m₁, m₂, m₃, raw, answer?_eq_some.1 hc, hleft, hy, hbind⟩
      · simp only [Operator.rightStart?, Option.bind_eq_bind, Option.bind_eq_some_iff] at h
        obtain ⟨⟨pid, n⟩, hx, hstart⟩ := h
        obtain ⟨⟨rawy, n', hy⟩, rfl⟩ := childStart?_eq_some.1 hstart
        obtain ⟨raw, hleft⟩ := spawned_of_ok (answer?_eq_some.1 hx)
        obtain rfl := hleft.2.raw_eq
        obtain rfl := hy.2.raw_eq
        exact .parallel ⟨hleft, n', hy⟩
  · intro h
    cases h with
    | serial hop hl hgo =>
      rw [rightStart?_of_serial hop, hl]
      exact if_pos hgo
    | pipe hruns =>
      obtain ⟨r, w, m₁, m₂, m₃, raw, hc, hx, hy, hb⟩ := hruns
      simp only [Operator.rightStart?, Option.bind_eq_bind, Option.bind_eq_some_iff]
      exact ⟨_, answer?_eq_some.2 hc, _, answer?_eq_some.2 hx.1, _,
        childStart?_eq_some.2 ⟨⟨_, _, hy⟩, rfl⟩, boundStart?_eq_some.2 hb⟩
    | parallel hruns =>
      obtain ⟨hx, n', hy⟩ := hruns
      simp only [Operator.rightStart?, Option.bind_eq_bind, Option.bind_eq_some_iff]
      exact ⟨_, answer?_eq_some.2 hx.1, childStart?_eq_some.2 ⟨⟨_, _, hy⟩, rfl⟩⟩

end Starts

/-! ### Visits -/

/-- A node that a run comes to. -/
structure Visit where
  /-- The node. -/
  node : Tree
  /-- The process that comes to it, as it is then. -/
  proc : Proc
  /-- How many children lie between the running process and that one. -/
  forked : Nat

namespace Visit

/-- What is visited in a side of an operator, as the process sees it that runs the pair. -/
def under (op : Operator) (v : Visit) : Visit :=
  if op.forks then { v with forked := v.forked + 1 } else v

/-- The leaf that is visited, with the process and its mark. -/
def leaf? (v : Visit) : Option (Proc × Option Nat × Command) :=
  match v.node with
  | .leaf mark c => some (v.proc, mark, c)
  | _ => none

/-- Whether a command is visited that runs as a child. -/
def isExternal (rules : Rules) (v : Visit) : Bool :=
  match v.node with
  | .leaf _ c => rules.kind (c.verb.expand v.proc.table) = .external
  | _ => false

/-- Whether a pair with a certain operator is visited. -/
def joins (op : Operator) (v : Visit) : Bool :=
  match v.node with
  | .binary _ o _ _ => o = op
  | _ => false

end Visit

instance (rules : Rules) (op : Operator) (t : Tree) (level : Int) :
    Decidable (rules.Admits op t level) :=
  decidable_of_iff (op ∈ rules.operators ∧ (level = 0 → t.firstShared.isNone = true))
    ⟨fun h => ⟨h.1, fun hlevel => Option.isNone_iff_eq_none.1 (h.2 hlevel)⟩,
      fun h => ⟨h.registered, fun hlevel => Option.isNone_iff_eq_none.2 (h.unshared hlevel)⟩⟩

/-- What is visited of the sides of a pair that is run from `m` on, where each side lists what is
visited of it by the machine in which it begins. -/
def Operator.visitSides (op : Operator) (a b : Act Status) (left right : Machine → List Visit)
    (m : Machine) : List Visit :=
  (op.leftStart? a m).elim [] left ++ (op.rightStart? a b m).elim [] right

/-- The nodes that the run of a tree comes to: a leaf, or a pair that is run and then what its sides
come to. A pair that is refused and a node without a command are not run. -/
def Tree.visits (rules : Rules) : Tree → Int → Machine → List Visit
  | .leaf mark c, _, m => [⟨.leaf mark c, m.proc, 0⟩]
  | .binary mark op l r, level, m =>
    if rules.Admits op (.binary mark op l r) level then
      ⟨.binary mark op l r, m.proc, 0⟩ ::
        (op.visitSides (execute rules l (level + 1)) (execute rules r (level + 1))
          (visits rules l (level + 1)) (visits rules r (level + 1))
          ((Tree.binary mark op l r).told level m)).map (.under op)
    else []
  | .bare _, _, _ => []

/-! ### Visits and contexts -/

/-- How many of the operators around a hole run their sides in children. -/
def Context.forked : Context → Nat
  | .hole => 0
  | .left _ op around _ => around.forked + if op.forks then 1 else 0
  | .right _ op _ around => around.forked + if op.forks then 1 else 0

/-- Whether a node is run at a depth: a pair may be refused, and there may be no command. -/
def Rules.Accepts (rules : Rules) : Tree → Int → Prop
  | .leaf _ _, _ => True
  | .binary mark op l r, level => rules.Admits op (.binary mark op l r) level
  | .bare _, _ => False

/-- A visit stands for the node in the hole of a context, which begins at depth `k` and in `n`. -/
structure Visit.StandsFor (v : Visit) (rules : Rules) (t : Tree) (level : Int) (m : Machine)
    (around : Context) (k : Int) (n : Machine) : Prop where
  /-- The node is one of the tree. -/
  fill : around.fill v.node = t
  /-- The run comes to it. -/
  reaches : Reaches rules v.node around level m k n
  /-- It is run there. -/
  accepts : rules.Accepts v.node k
  /-- The process is the one that comes to it. -/
  proc : v.proc = n.proc
  /-- The operators around it tell how many children lie between. -/
  forked : v.forked = around.forked

namespace Visit

theorem under_node (op : Operator) (v : Visit) : (v.under op).node = v.node := by
  unfold under
  split <;> rfl

theorem under_proc (op : Operator) (v : Visit) : (v.under op).proc = v.proc := by
  unfold under
  split <;> rfl

theorem under_forked (op : Operator) (v : Visit) :
    (v.under op).forked = v.forked + if op.forks then 1 else 0 := by
  unfold under
  split <;> rfl

/-- What a visit is in a side of an operator is told by how many children lie between. -/
theorem eq_under {op : Operator} {v : Visit} {n : Nat} (h : v.forked = n + if op.forks then 1 else 0) :
    v = under op ⟨v.node, v.proc, n⟩ := by
  obtain ⟨node, proc, forked⟩ := v
  obtain rfl : forked = _ := h
  cases hop : op.forks <;> simp [under, hop]

variable {rules : Rules} {t l r : Tree} {mark : Option Nat} {op : Operator} {level k : Int}
  {m m₁ n : Machine} {around : Context} {u v : Visit}

theorem StandsFor.left (hadmits : rules.Admits op (.binary mark op l r) level)
    (hbegins : BeginsLeft (execute rules l (level + 1)) ((Tree.binary mark op l r).told level m) op m₁)
    (h : u.StandsFor rules l (level + 1) m₁ around k n) :
    (u.under op).StandsFor rules (.binary mark op l r) level m (.left mark op around r) k n := by
  obtain ⟨rfl, hreaches, haccepts, hproc, hforked⟩ := h
  refine ⟨?_, ?_, ?_, (u.under_proc op).trans hproc, ?_⟩
  · rw [under_node, Context.fill]
  · rw [under_node]
    exact .left hadmits hbegins hreaches
  · rwa [under_node]
  · rw [under_forked, hforked, Context.forked]

theorem StandsFor.right (hadmits : rules.Admits op (.binary mark op l r) level)
    (hbegins : BeginsRight (execute rules l (level + 1)) (execute rules r (level + 1))
      ((Tree.binary mark op l r).told level m) op m₁)
    (h : u.StandsFor rules r (level + 1) m₁ around k n) :
    (u.under op).StandsFor rules (.binary mark op l r) level m (.right mark op l around) k n := by
  obtain ⟨rfl, hreaches, haccepts, hproc, hforked⟩ := h
  refine ⟨?_, ?_, ?_, (u.under_proc op).trans hproc, ?_⟩
  · rw [under_node, Context.fill]
  · rw [under_node]
    exact .right hadmits hbegins hreaches
  · rwa [under_node]
  · rw [under_forked, hforked, Context.forked]

/-- A visit stands for the whole tree, or for a node of one of its sides. -/
theorem StandsFor.cases (h : v.StandsFor rules t level m around k n) :
    (v = ⟨t, m.proc, 0⟩ ∧ rules.Accepts t level) ∨
    ∃ mark op l r, t = .binary mark op l r ∧ rules.Admits op t level ∧ ∃ u : Visit, v = u.under op ∧
      ((∃ m₁ around', BeginsLeft (execute rules l (level + 1)) (t.told level m) op m₁ ∧
        u.StandsFor rules l (level + 1) m₁ around' k n) ∨
      ∃ m₁ around', BeginsRight (execute rules l (level + 1)) (execute rules r (level + 1))
        (t.told level m) op m₁ ∧ u.StandsFor rules r (level + 1) m₁ around' k n) := by
  obtain ⟨rfl, hreaches, haccepts, hproc, hforked⟩ := h
  cases hreaches with
  | hole =>
    left
    obtain ⟨node, proc, forked⟩ := v
    obtain rfl : proc = m.proc := hproc
    obtain rfl : forked = 0 := hforked
    exact ⟨rfl, haccepts⟩
  | @left mark op around r _ _ _ m₁ _ hadmits hbegins hreaches =>
    exact Or.inr ⟨mark, op, _, r, rfl, hadmits, _, eq_under hforked, Or.inl
      ⟨m₁, around, hbegins, rfl, hreaches, haccepts, hproc, rfl⟩⟩
  | @right mark op l around _ _ _ m₁ _ hadmits hbegins hreaches =>
    exact Or.inr ⟨mark, op, l, _, rfl, hadmits, _, eq_under hforked, Or.inr
      ⟨m₁, around, hbegins, rfl, hreaches, haccepts, hproc, rfl⟩⟩

theorem StandsFor.hole (h : rules.Accepts t level) :
    (⟨t, m.proc, 0⟩ : Visit).StandsFor rules t level m .hole level m :=
  ⟨rfl, .hole level m, h, rfl, rfl⟩

/-- What stands for nodes of a pair that is run: one visit for the pair, the others for nodes of its
sides. -/
theorem exists_standsFor_pair_iff :
    (∃ around k n, v.StandsFor rules (.binary mark op l r) level m around k n) ↔
      rules.Admits op (.binary mark op l r) level ∧ (v = ⟨.binary mark op l r, m.proc, 0⟩ ∨
        ∃ u : Visit,
          ((∃ m₁, BeginsLeft (execute rules l (level + 1)) ((Tree.binary mark op l r).told level m) op m₁ ∧
            ∃ around k n, u.StandsFor rules l (level + 1) m₁ around k n) ∨
          ∃ m₁, BeginsRight (execute rules l (level + 1)) (execute rules r (level + 1))
              ((Tree.binary mark op l r).told level m) op m₁ ∧
            ∃ around k n, u.StandsFor rules r (level + 1) m₁ around k n) ∧ u.under op = v) := by
  constructor
  · rintro ⟨around, k, n, h⟩
    rcases h.cases with ⟨rfl, haccepts⟩ | ⟨_, _, _, _, ht, hadmits, u, rfl, hside⟩
    · exact ⟨haccepts, Or.inl rfl⟩
    · obtain ⟨rfl, rfl, rfl, rfl⟩ := Tree.binary.inj ht
      refine ⟨hadmits, Or.inr ⟨u, ?_, rfl⟩⟩
      rcases hside with ⟨m₁, around, hbegins, hside⟩ | ⟨m₁, around, hbegins, hside⟩
      · exact Or.inl ⟨m₁, hbegins, around, k, n, hside⟩
      · exact Or.inr ⟨m₁, hbegins, around, k, n, hside⟩
  · rintro ⟨hadmits, rfl | ⟨u, ⟨m₁, hbegins, _, _, _, h⟩ | ⟨m₁, hbegins, _, _, _, h⟩, rfl⟩⟩
    · exact ⟨_, _, _, .hole hadmits⟩
    · exact ⟨_, _, _, h.left hadmits hbegins⟩
    · exact ⟨_, _, _, h.right hadmits hbegins⟩

end Visit

theorem mem_visitSides {op : Operator} {a b : Act Status} {left right : Machine → List Visit}
    {m : Machine} {v : Visit} : v ∈ op.visitSides a b left right m ↔
      (∃ k, BeginsLeft a m op k ∧ v ∈ left k) ∨ ∃ k, BeginsRight a b m op k ∧ v ∈ right k := by
  have helim (start : Option Machine) (visits : Machine → List Visit) :
      v ∈ start.elim [] visits ↔ ∃ k, start = some k ∧ v ∈ visits k := by
    cases start <;> simp
  rw [Operator.visitSides, List.mem_append, helim, helim]
  simp only [leftStart?_eq_some, rightStart?_eq_some]

/-- The nodes that a run comes to are those that begin in it and are run there. The induction follows
the tree. -/
theorem mem_visits_iff {rules : Rules} {t : Tree} {level : Int} {m : Machine} {v : Visit} :
    v ∈ t.visits rules level m ↔ ∃ around k n, v.StandsFor rules t level m around k n := by
  induction t generalizing level m v with
  | leaf mark c =>
    rw [Tree.visits, List.mem_singleton]
    constructor
    · rintro rfl
      exact ⟨_, _, _, Visit.StandsFor.hole True.intro⟩
    · rintro ⟨around, k, n, h⟩
      rcases h.cases with ⟨rfl, -⟩ | ⟨_, _, _, _, ht, -⟩
      · rfl
      · cases ht
  | bare mark =>
    rw [Tree.visits]
    refine iff_of_false List.not_mem_nil ?_
    rintro ⟨around, k, n, h⟩
    rcases h.cases with ⟨-, haccepts⟩ | ⟨_, _, _, _, ht, -⟩
    · exact haccepts
    · cases ht
  | binary mark op l r ihl ihr =>
    rw [Tree.visits, Visit.exists_standsFor_pair_iff]
    split
    · next hadmits =>
      simp only [List.mem_cons, List.mem_map, mem_visitSides, ihl, ihr, hadmits, true_and]
    · next hadmits => exact iff_of_false List.not_mem_nil fun h => hadmits h.1

end LineShell
