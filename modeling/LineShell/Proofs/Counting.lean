import LineShell.Proofs.Granting
import LineShell.Proofs.Order
import LineShell.Proofs.Serving
import LineShell.Proofs.Visits

/-!
# What a run counts

A process counts the children that it makes and waits for, and the channels that it makes. These
counts tell exactly what the process ran itself: one child for each command that is neither an
assignment nor built in, two for each pipe and for each parallel pair, and one channel for each
pipe. A child starts with a copy of the counts, which is lost with it, so what happens in children
does not show. The journal tells of the children of all processes, and these are as many as all
that is run, by any process, asks for.

## The model

* The visits of a tree, which are computed from its run, list the nodes that are reached with the
  machine in which each of them is. `Rules.externals`, `pairsOf` and `Rules.forksOf` count among
  visits what is to run as a child; `ownVisits` are those of the running process itself.
* `begun` reads off a journal the leaves that were begun with the process that began each.
  `Produced` says that between two machines certain leaves were begun and a number of children was
  made.
* `Lists` says that visits list the run of an action, as long as every child and channel that is
  asked for is granted.
* `Counts` says that the counts of the running process grow by what it visits itself.

## What is proved

* Visits of a pair are those of its sides, seen from the pair, and what they ask for is a sum
  (`Rules.forksOf_pair`, `Rules.forksOf_under`); visits in children are none of the process's own
  (`ownVisits_under_of_forks`).
* The maker of a child tells what the child did, and one more (`Produced.spawn`). So the visits
  list the run of every tree (`execute_lists`), by induction on the tree.
* A pipe counts for two children and a channel whatever happens in its sides (`piped_stats`), a
  parallel pair for two children (`inParallel_stats`), and so every tree counts for what its
  process visits (`execute_counts`).
* An assignment or a command that is built in makes no child, whatever is refused
  (`execute_builtin_produced`).

## What is left out

Where a child or a channel is refused, less is run than is asked for, and the sums do not hold.
The count of programs tried grows in the child that tries one, so a session never sees it grow.
-/

namespace LineShell

open Act

/-! ### What visits ask for -/

/-- How many commands are visited that run as children. -/
def Rules.externals (rules : Rules) (vs : List Visit) : Nat := vs.countP (·.isExternal rules)

/-- How many pairs with an operator are visited. -/
def pairsOf (op : Operator) (vs : List Visit) : Nat := vs.countP (·.joins op)

/-- How many children the visits ask for. -/
def Rules.forksOf (rules : Rules) (vs : List Visit) : Nat :=
  rules.externals vs + 2 * pairsOf .pipe vs + 2 * pairsOf .parallel vs

/-- What the running process itself visits. -/
def ownVisits (vs : List Visit) : List Visit := vs.filter (·.forked = 0)

section Visits

variable {rules : Rules} {op o : Operator} {vs us : List Visit}

theorem Visit.leaf?_under (v : Visit) : (v.under op).leaf? = v.leaf? := by
  unfold leaf?
  rw [under_node, under_proc]

theorem Visit.isExternal_under (v : Visit) : (v.under op).isExternal rules = v.isExternal rules := by
  unfold isExternal
  rw [under_node, under_proc]

theorem Visit.joins_under (v : Visit) : (v.under op).joins o = v.joins o := by
  unfold joins
  rw [under_node]

theorem filterMap_leaf?_under : (vs.map (.under op)).filterMap Visit.leaf? = vs.filterMap Visit.leaf? := by
  rw [List.filterMap_map]
  exact List.filterMap_congr fun v _ => v.leaf?_under

theorem pairsOf_append : pairsOf op (vs ++ us) = pairsOf op vs + pairsOf op us := List.countP_append

theorem pairsOf_under : pairsOf o (vs.map (.under op)) = pairsOf o vs := by
  rw [pairsOf, List.countP_map]
  exact List.countP_congr fun v _ => by rw [Function.comp_apply, v.joins_under]

theorem Rules.forksOf_append : rules.forksOf (vs ++ us) = rules.forksOf vs + rules.forksOf us := by
  simp only [forksOf, externals, pairsOf, List.countP_append]
  omega

theorem Rules.forksOf_under : rules.forksOf (vs.map (.under op)) = rules.forksOf vs := by
  have hexternals : rules.externals (vs.map (.under op)) = rules.externals vs := by
    rw [externals, List.countP_map]
    exact List.countP_congr fun v _ => by rw [Function.comp_apply, v.isExternal_under]
  rw [forksOf, hexternals, pairsOf_under, pairsOf_under, forksOf]

/-- A leaf asks for one child if it is to run as one. -/
theorem Rules.forksOf_leaf (mark : Option Nat) (c : Command) (p : Proc) (n : Nat) :
    rules.forksOf [⟨.leaf mark c, p, n⟩]
      = if rules.kind (c.verb.expand p.table) = .external then 1 else 0 := by
  simp [forksOf, externals, pairsOf, Visit.isExternal, Visit.joins]

/-- A pair asks for two children if its sides run in children. -/
theorem Rules.forksOf_pair (mark : Option Nat) (l r : Tree) (p : Proc) (n : Nat) :
    rules.forksOf (⟨.binary mark op l r, p, n⟩ :: vs)
      = (if op.forks then 2 else 0) + rules.forksOf vs := by
  simp only [forksOf, externals, pairsOf, List.countP_cons, Visit.isExternal, Visit.joins]
  cases op <;> simp [Operator.forks] <;> omega

theorem pairsOf_pipe_pair (mark : Option Nat) (l r : Tree) (p : Proc) (n : Nat) :
    pairsOf .pipe (⟨.binary mark op l r, p, n⟩ :: vs)
      = (if op = .pipe then 1 else 0) + pairsOf .pipe vs := by
  rw [pairsOf, List.countP_cons, Nat.add_comm]
  simp [Visit.joins, pairsOf]

theorem ownVisits_append : ownVisits (vs ++ us) = ownVisits vs ++ ownVisits us := List.filter_append ..

/-- What is visited in children, the running process does not visit itself. -/
theorem ownVisits_under_of_forks (hop : op.forks = true) : ownVisits (vs.map (.under op)) = [] := by
  rw [ownVisits, List.filter_eq_nil_iff]
  intro v hv
  obtain ⟨u, -, rfl⟩ := List.mem_map.1 hv
  simp [Visit.under_forked, hop]

/-- The sides of a serial pair are visited by the process that runs the pair. -/
theorem map_under_of_serial (hop : op.forks = false) : vs.map (.under op) = vs := by
  have hsame : Visit.under op = id := funext fun v => if_neg (by simp [hop])
  rw [hsame, List.map_id]

end Visits

/-! ### What the journal tells -/

/-- The leaf whose beginning a journal entry tells of, with the process that began it. -/
def Entry.begun? : Entry → Option (Proc × Option Nat × Command)
  | .began p mark c => some (p, mark, c)
  | _ => none

/-- The leaves that were begun. -/
def begun (es : List Entry) : List (Proc × Option Nat × Command) := es.filterMap Entry.begun?

theorem Entry.unborn_of_starter? {e : Entry} (h : e.starter? = none) :
    e.begun? = none ∧ e.forked? = none := by
  unfold starter? at h
  split at h
  · cases h
  · cases h
  · next hbegan hfork =>
    refine ⟨?_, ?_⟩
    · cases e with
      | began p mark c => exact absurd rfl (hbegan p mark c)
      | _ => rfl
    · unfold forked?
      split
      · next pid child => exact absurd rfl (hfork pid child)
      · rfl

/-- Between two machines certain leaves were begun, and a number of children was made. -/
def Produced (leaves : List (Proc × Option Nat × Command)) (n : Nat) (m m' : Machine) : Prop :=
  ∃ es, m'.world.journal = m.world.journal ++ es ∧ begun es = leaves ∧ (forks es).length = n

namespace Produced

variable {a b c m m' : Machine} {leaves leaves' : List (Proc × Option Nat × Command)} {i j : Nat}

theorem of_uneventful (h : Uneventful m m') : Produced [] 0 m m' := by
  obtain ⟨es, hes, hnone⟩ := h.journal
  have hforks : forks es = [] :=
    List.filterMap_eq_nil_iff.2 fun e he => (Entry.unborn_of_starter? (hnone e he)).2
  refine ⟨es, hes, ?_, by rw [hforks, List.length_nil]⟩
  exact List.filterMap_eq_nil_iff.2 fun e he => (Entry.unborn_of_starter? (hnone e he)).1

theorem trans (hab : Produced leaves i a b) (hbc : Produced leaves' j b c) :
    Produced (leaves ++ leaves') (i + j) a c := by
  obtain ⟨es, hes, rfl, rfl⟩ := hab
  obtain ⟨fs, hfs, rfl, rfl⟩ := hbc
  exact ⟨es ++ fs, by rw [hfs, hes, List.append_assoc], List.filterMap_append,
    by rw [forks_append, List.length_append]⟩

theorem before (h : Uneventful a b) (hbc : Produced leaves i b c) : Produced leaves i a c := by
  simpa using (of_uneventful h).trans hbc

theorem behind (hab : Produced leaves i a b) (h : Uneventful b c) : Produced leaves i a c := by
  simpa using hab.trans (of_uneventful h)

/-- The maker of a child tells what the child did, and that there was one more. -/
theorem spawn {work : Act ChildEnd} {pid : Nat} (hspawn : LineShell.spawn work m = .ok pid m')
    (h : Produced leaves i m.born (work.after m.born)) : Produced leaves (i + 1) m m' := by
  obtain ⟨r, raw, htold⟩ := spawn_eq_ok hspawn
  have hborn : Produced [] 1 m m.born := ⟨[_, _], List.append_assoc .., rfl, rfl⟩
  have hend : Uneventful (work.after m.born) ((conclude r).after (work.after m.born)) :=
    Keeps.conclude_of (fun n _ => .note n rfl) r _
  obtain ⟨es, hes, hleaves, hforks⟩ := (hborn.trans h).behind hend
  have hlived : Produced leaves (1 + i) m
      (m.outlived ((conclude r).after (work.after m.born)).world raw) := ⟨es, hes, hleaves, hforks⟩
  rw [Nat.add_comm]
  exact hlived.behind ((Keeps.tellChild _).of_ok htold)

end Produced

/-! ### What all processes run -/

/-- The visits list the run of an action: if it is granted what it asks for, the leaves that are begun
are those that are visited, and as many children are made as the visits ask for. -/
def Lists {α : Type} (rules : Rules) (vs : List Visit) (a : Act α) (m : Machine) : Prop :=
  Granted m (a.after m) → Produced (vs.filterMap Visit.leaf?) (rules.forksOf vs) m (a.after m)

section Lists

variable {rules : Rules} {vs us : List Visit} {a b : Act Status} {x y : Act ChildEnd}
  {m m₁ m' : Machine}

theorem Lists.of_uneventful {α : Type} {a : Act α} (h : Uneventful m (a.after m)) :
    Lists rules [] a m := fun _ => .of_uneventful h

theorem Lists.sideWork (h : Lists rules vs a m) : Lists rules vs (sideWork a) m := by
  rw [Lists, sideWork_after]
  exact h

/-- A side of a pipe is run where its stream is bound. -/
theorem Lists.pipeSide {visits : Machine → List Visit} (h : ∀ n, Lists rules (visits n) a n)
    (fd standard r w : Nat) (m : Machine) :
    Lists rules ((boundStart? fd standard [r, w] m).elim [] visits) (pipeSide a fd standard r w) m := by
  have hbind := (Keeps.bindStream fd standard [r, w]).uneventful m
  cases hb : bindStream fd standard [r, w] m with
  | error e k =>
    rw [boundStart?, hb]
    refine .of_uneventful ?_
    rw [after_of_error hb] at hbind
    rwa [LineShell.pipeSide, after_bind, hb]
  | ok bound k =>
    rw [boundStart?_eq_some.2 hb]
    rw [after_of_ok hb] at hbind
    intro hgranted
    rw [pipeSide_after hb] at hgranted ⊢
    exact .before hbind (h k (hgranted.rest ((Keeps.bindStream_proceeds _ _ _).of_ok hb)))

/-- Two children that are made are two more than their works ask for. -/
theorem Lists.children (hx : Lists rules vs x m.born) (hy : Lists rules us y m₁.born)
    (hyp : Keeps Proceeds y) (hxp : Keeps Proceeds x) (hsx : spawn x m = .ok m.world.nextPid m₁)
    (hsy : spawn y m₁ = .ok m₁.world.nextPid m') (hgranted : Granted m m') :
    Produced ((vs ++ us).filterMap Visit.leaf?) (2 + rules.forksOf (vs ++ us)) m m' := by
  have hleft : Proceeds m m₁ := (Keeps.spawn_proceeds hxp).of_ok hsx
  have hright : Proceeds m₁ m' := (Keeps.spawn_proceeds hyp).of_ok hsy
  have hfirst := (hx ((hgranted.first hright.recorded).born hsx)).spawn hsx
  have hsecond := (hy ((hgranted.rest hleft).born hsy)).spawn hsy
  obtain ⟨es, hes, hleaves, hforks⟩ := hfirst.trans hsecond
  refine ⟨es, hes, ?_, ?_⟩
  · rw [hleaves, List.filterMap_append]
  · rw [hforks, Rules.forksOf_append]
    omega

end Lists

section Operators

variable {rules : Rules} {a b : Act Status} {left right : Machine → List Visit} {m : Machine}
  (hap : Keeps Proceeds a) (hbp : Keeps Proceeds b)
  (ha : ∀ n, Lists rules (left n) a n) (hb : ∀ n, Lists rules (right n) b n)
include hap hbp ha hb

theorem piped_produced (hgranted : Granted m ((piped a b).after m)) :
    Produced ((Operator.pipe.visitSides a b left right m).filterMap Visit.leaf?)
      (2 + rules.forksOf (Operator.pipe.visitSides a b left right m)) m ((piped a b).after m) := by
  obtain ⟨r, w, m₁, m₂, m₃, hmade⟩ := hgranted.exists_pipe hap hbp
  obtain ⟨hleft, hright⟩ := starts_of_pipe hmade.channel hmade.left hmade.right
  have hstart : Uneventful m m₁ := Keeps.createChannel.uneventful.of_ok hmade.channel
  have hfinish : Keeps Uneventful (finishPipe r w [m₁.world.nextPid, m₂.world.nextPid] none) :=
    .finishPipe (Keeps.closeAll _).uneventful (fun pid _ => await_uneventful pid) none
  rw [Operator.visitSides, hleft, hright]
  rw [after_eq_of_eq hmade.piped_eq] at hgranted ⊢
  have hwhole : Recorded m₃ ((finishPipe r w [m₁.world.nextPid, m₂.world.nextPid] none).after m₃) :=
    Keeps.finishPipe (Keeps.closeAll _).recorded (fun pid _ => await_recorded pid) none m₃
  have hmid := (hgranted.rest (Keeps.createChannel_proceeds.of_ok hmade.channel)).first hwhole
  exact .before hstart (.behind (Lists.children (.pipeSide ha _ _ _ _ _) (.pipeSide hb _ _ _ _ _)
    (.pipeSide_proceeds hbp _ _ _ _) (.pipeSide_proceeds hap _ _ _ _) hmade.left hmade.right hmid)
    (hfinish m₃))

theorem inParallel_produced (hgranted : Granted m ((inParallel a b).after m)) :
    Produced ((Operator.parallel.visitSides a b left right m).filterMap Visit.leaf?)
      (2 + rules.forksOf (Operator.parallel.visitSides a b left right m)) m
      ((inParallel a b).after m) := by
  obtain ⟨m₁, m₂, hx, hy⟩ := hgranted.exists_branches hap hbp
  obtain ⟨hleft, hright⟩ := starts_of_parallel hx hy
  have hfinish : Keeps Uneventful (finishParallel [m.world.nextPid, m₁.world.nextPid] none) :=
    .finishParallel (fun pid _ => await_uneventful pid) none
  rw [Operator.visitSides, hleft, hright]
  rw [after_eq_of_eq (inParallel_of_spawned hx hy)] at hgranted ⊢
  have hwhole : Recorded m₂ ((finishParallel [m.world.nextPid, m₁.world.nextPid] none).after m₂) :=
    Keeps.finishParallel (fun pid _ => await_recorded pid) none m₂
  exact .behind (Lists.children (ha _).sideWork (hb _).sideWork (.sideWork_proceeds hbp)
    (.sideWork_proceeds hap) hx hy (hgranted.first hwhole)) (hfinish m₂)

/-- Serial operators run both sides in the running process, the right one if the left one has it run. -/
theorem serial_produced {op : Operator} (hop : op.forks = false)
    (hgranted : Granted m ((combine op a b).after m)) :
    Produced ((op.visitSides a b left right m).filterMap Visit.leaf?)
      (rules.forksOf (op.visitSides a b left right m)) m ((combine op a b).after m) := by
  have hleft := ha m
  have hstart : Proceeds m (a.after m) := hap m
  rw [Operator.visitSides, leftStart?_of_serial hop, rightStart?_of_serial hop]
  rw [combine_of_serial hop, after_bind] at hgranted ⊢
  rw [Lists] at hleft
  cases hl : a m with
  | error e m₁ =>
    rw [hl] at hgranted
    rw [after_of_error hl] at hleft
    simpa using hleft hgranted
  | ok s m₁ =>
    rw [hl] at hgranted
    rw [after_of_ok hl] at hleft hstart
    cases s with
    | terminate =>
      show Produced _ _ m m₁
      simpa using hleft hgranted
    | code n =>
      dsimp only at hgranted ⊢
      cases hgo : op.admits n with
      | true =>
        rw [if_pos hgo] at hgranted
        have hright := hb m₁ (hgranted.rest hstart)
        have hend : Recorded m₁ (b.after m₁) := (hbp m₁).recorded
        have hboth := (hleft (hgranted.first hend)).trans hright
        rw [← List.filterMap_append, ← Rules.forksOf_append] at hboth
        exact hboth
      | false =>
        rw [if_neg (by simp [hgo])] at hgranted
        have hskip : Uneventful m₁ ((op.pass n).after m₁) := Keeps.pass hgo m₁
        have hend : Recorded m₁ ((op.pass n).after m₁) := Keeps.pass hgo m₁
        simpa using (hleft (hgranted.first hend)).behind hskip

/-- Whatever the operator, what its sides ask for is asked for, and two children if it runs them in
children. -/
theorem combine_produced (op : Operator) (hgranted : Granted m ((combine op a b).after m)) :
    Produced ((op.visitSides a b left right m).filterMap Visit.leaf?)
      ((if op.forks then 2 else 0) + rules.forksOf (op.visitSides a b left right m)) m
      ((combine op a b).after m) := by
  cases hop : op.forks with
  | true =>
    rcases Operator.forks_eq_true_iff.1 hop with rfl | rfl
    · exact piped_produced hap hbp ha hb hgranted
    · exact inParallel_produced hap hbp ha hb hgranted
  | false => simpa using serial_produced hap hbp ha hb hop hgranted

end Operators

/-- The child of a command begins no leaf and makes no child. -/
theorem runExternal_produced {c : Command} {m : Machine} (h : Granted m ((runExternal c).after m)) :
    Produced [] 1 m ((runExternal c).after m) := by
  obtain ⟨m₁, hs, hrun⟩ := h.exists_child
  rw [after_eq_of_eq hrun]
  exact .behind (.spawn hs (.of_uneventful (runChild_uneventful c m.born))) (await_uneventful _ m₁)

/-- Assignments, changes of directory and the end of the session make no child. -/
theorem perform_uneventful {rules : Rules} {verb : Text} (h : rules.kind verb ≠ .external)
    (c : Command) : Keeps Uneventful (rules.perform c verb) := by
  unfold Rules.perform
  cases hkind : rules.kind verb with
  | assignment name value => exact setVariable_uneventful name value
  | change => exact changeDirectory_uneventful c
  | finish => exact endSession_uneventful verb
  | external => exact absurd hkind h

/-- To begin a leaf is to tell of it. -/
theorem told_produced (mark : Option Nat) (c : Command) (level : Int) (m : Machine) :
    Produced [(m.proc, mark, c)] 0 m ((Tree.leaf mark c).told level m) := by
  have hbegan : Produced [(m.proc, mark, c)] 0 m (m.note (.began m.proc mark c)) :=
    ⟨[_], rfl, rfl, rfl⟩
  exact hbegan.behind (Keeps.debug (R := Uneventful) runner _ _)

section Ends

variable {R : Machine → Machine → Prop} [Tallies R] {rules : Rules} {mark : Option Nat} {level : Int}

/-- Behind what a command does, its status is kept. -/
theorem execute_leaf_after (c : Command) (m : Machine) :
    R ((runLeaf rules mark c level).after m) ((execute rules (.leaf mark c) level).after m) :=
  Keeps.rest (fun s => .remember s) m

/-- Behind what the sides of a pair do, its status is logged and kept. -/
theorem execute_pair_after {op : Operator} {l r : Tree}
    (h : rules.Admits op (.binary mark op l r) level) (m : Machine) :
    R ((combine op (execute rules l (level + 1)) (execute rules r (level + 1))).after
        ((Tree.binary mark op l r).told level m))
      ((execute rules (.binary mark op l r) level).after m) := by
  rw [after_eq_of_eq (execute_of_admits h m)]
  exact Keeps.rest (fun s => .bind (.debug _ _) fun _ => .remember s) _

end Ends

/-- A command that is an assignment or built in makes no child, whatever is refused. -/
theorem execute_builtin_produced {rules : Rules} {c : Command} {m : Machine} (mark : Option Nat)
    (level : Int) (hkind : rules.kind (c.verb.expand m.proc.table) ≠ .external) :
    Produced [(m.proc, mark, c)] 0 m ((execute rules (.leaf mark c) level).after m) := by
  refine .behind ?_ (execute_leaf_after c m)
  rw [after_eq_of_eq (runLeaf_eq rules mark c level m)]
  exact (told_produced mark c level m).behind (perform_uneventful hkind c _)

/-- What a command visits is the command. -/
theorem execute_leaf_lists (rules : Rules) (mark : Option Nat) (c : Command) (level : Int) (m : Machine) :
    Lists rules [⟨.leaf mark c, m.proc, 0⟩] (execute rules (.leaf mark c) level) m := by
  intro hgranted
  rw [Rules.forksOf_leaf]
  split
  · next hkind =>
    have hrun := hgranted.first (execute_leaf_after c m)
    have hexternal : rules.perform c (c.verb.expand m.proc.table) = runExternal c := by
      rw [Rules.perform, hkind]
    refine .behind ?_ (execute_leaf_after c m)
    rw [after_eq_of_eq (runLeaf_eq rules mark c level m), hexternal] at hrun ⊢
    exact (told_produced mark c level m).trans
      (runExternal_produced (hrun.rest (Tree.told_proceeds _ level m)))
  · next hkind => exact execute_builtin_produced mark level hkind

/-- Whatever the tree, the visits list its run. The induction follows the tree. -/
theorem execute_lists (rules : Rules) (t : Tree) (level : Int) (m : Machine) :
    Lists rules (t.visits rules level m) (execute rules t level) m := by
  induction t generalizing level m with
  | leaf mark c => exact execute_leaf_lists rules mark c level m
  | bare mark => exact .of_uneventful (Frame.refl m)
  | binary mark op l r ihl ihr =>
    rw [Tree.visits]
    split
    · next hadmits =>
      intro hgranted
      have htold : Uneventful m ((Tree.binary mark op l r).told level m) :=
        (Keeps.debug (R := Uneventful) executor _) m
      have hsides := combine_produced (execute_proceeds rules l _) (execute_proceeds rules r _)
        (ihl (level + 1)) (ihr (level + 1)) op
        ((hgranted.rest (Tree.told_proceeds _ level m)).first (execute_pair_after hadmits m))
      rw [List.filterMap_cons_none rfl, filterMap_leaf?_under, Rules.forksOf_pair, Rules.forksOf_under]
      exact .before htold (.behind hsides (execute_pair_after hadmits m))
    · next hadmits =>
      obtain ⟨failure, hrefused⟩ := execute_of_not_admits hadmits m
      refine .of_uneventful ?_
      rw [after_of_error hrefused]
      exact Frame.refl m

/-! ### What the running process counts -/

/-- The counts with children that were made and waited for, and with channels. -/
def Stats.grown (s : Stats) (children channels : Nat) : Stats where
  fork := s.fork + children
  exec := s.exec
  wait := s.wait + children
  pipe := s.pipe + channels

theorem Stats.grown_grown (s : Stats) (i j k l : Nat) :
    (s.grown i j).grown k l = s.grown (i + k) (j + l) := by
  simp only [grown, Nat.add_assoc]

/-- The running process has counted nothing. -/
def SameStats (m m' : Machine) : Prop := m'.proc.stats = m.proc.stats

instance : Frame SameStats := ⟨fun _ => rfl, fun hab hbc => hbc.trans hab⟩

instance : Kernel SameStats := ⟨fun _ => rfl⟩

namespace Act.Keeps

theorem remember_sameStats (s : Status) : Keeps SameStats (LineShell.remember s) := by
  unfold LineShell.remember
  split
  · exact .bind (fun _ => rfl) fun _ => .pure _
  · exact .bind (.pure _) fun _ => .pure _

theorem closeAll_sameStats (fds : List Nat) : Keeps SameStats (LineShell.closeAll fds) :=
  .forM fun _ _ => .close_of (fun _ _ => rfl) fun _ => rfl

/-- Assignments, changes of directory and the end of the session are not counted. -/
theorem perform_sameStats {rules : Rules} {verb : Text} (h : rules.kind verb ≠ .external)
    (c : Command) : Keeps SameStats (rules.perform c verb) := by
  have hset (name value : Text) :
      Keeps SameStats (Act.modifyProc fun p => { p with table := p.table.set name value }) := fun _ => rfl
  unfold Rules.perform
  cases hkind : rules.kind verb with
  | assignment name value => exact .bind (hset _ _) fun _ => .bind (.debug _ _) fun _ => .pure _
  | change =>
    exact .changeDirectory_of .getcwd (fun _ => .chdir_of (fun _ _ => rfl) fun _ _ => rfl)
      (fun name _ value => hset name value) c
  | finish => exact .bind (.info _ _) fun _ => .pure _
  | external => exact absurd hkind h

end Act.Keeps

section Stats

variable {a b : Act Status} {m m' : Machine} {s : Status} {pid : Nat}

theorem spawn_stats {work : Act ChildEnd} (h : spawn work m = .ok pid m') :
    m'.proc.stats = { m.proc.stats with fork := m.proc.stats.fork + 1 } := by
  obtain ⟨r, raw, htold⟩ := spawn_eq_ok h
  rw [tellChild_proc htold]
  rfl

theorem await_stats (h : await pid m = .ok s m') :
    m'.proc.stats = { m.proc.stats with wait := m.proc.stats.wait + 1 } := by
  rw [await_proc h]

theorem createChannel_stats {r w : Nat} (h : createChannel m = .ok (r, w) m') :
    m'.proc.stats = { m.proc.stats with pipe := m.proc.stats.pipe + 1 } := by
  obtain ⟨ends, m₁, hpipe, hrest⟩ := bind_eq_ok.1 (createChannel_eq ▸ h)
  have hmade : SameStats m m₁ := (Keeps.pipe_of (fun _ _ => rfl) fun _ _ _ => rfl).of_ok hpipe
  obtain ⟨_, m₂, htally, hrest⟩ := bind_eq_ok.1 hrest
  obtain ⟨_, m₃, hlog, hrest⟩ := bind_eq_ok.1 hrest
  obtain ⟨-, rfl⟩ := EStateM.Result.ok.inj hrest
  rw [debug_idle hlog, ← (EStateM.Result.ok.inj htally).2, ← hmade]

/-- Both sides of a pipe are waited for. -/
theorem awaitStages_stats {p q : Nat} (h : awaitStages [p, q] m = .ok s m') :
    m'.proc.stats = { m.proc.stats with wait := m.proc.stats.wait + 2 } := by
  obtain ⟨s₁, m₁, hleft, h⟩ := bind_eq_ok.1 h
  obtain ⟨_, m₂, hlog, hright⟩ := bind_eq_ok.1 h
  rw [await_stats hright, debug_idle hlog, await_stats hleft]

/-- Both branches of a parallel pair are waited for. -/
theorem awaitAll_stats {p q : Nat} {ss : List Status} (h : awaitAll [p, q] m = .ok ss m') :
    m'.proc.stats = { m.proc.stats with wait := m.proc.stats.wait + 2 } := by
  obtain ⟨s₁, m₁, hleft, h⟩ := bind_eq_ok.1 h
  obtain ⟨rest, m₂, hrest, h⟩ := bind_eq_ok.1 h
  obtain ⟨-, rfl⟩ := EStateM.Result.ok.inj (h : EStateM.Result.ok _ _ = _)
  obtain ⟨s₂, m₃, hright, hrest⟩ := bind_eq_ok.1 hrest
  obtain ⟨_, m₄, hnil, hrest⟩ := bind_eq_ok.1 hrest
  obtain ⟨-, rfl⟩ := EStateM.Result.ok.inj (hrest : EStateM.Result.ok _ _ = _)
  obtain ⟨-, rfl⟩ := EStateM.Result.ok.inj (hnil : EStateM.Result.ok _ _ = _)
  rw [await_stats hright, await_stats hleft]

/-- A command that is a program counts for one child. -/
theorem runExternal_stats {c : Command} (hgranted : Granted m m') (h : runExternal c m = .ok s m') :
    m'.proc.stats = m.proc.stats.grown 1 0 := by
  obtain ⟨m₁, hs, hrun⟩ := Granted.exists_child (after_of_ok h ▸ hgranted)
  rw [await_stats (hrun ▸ h), spawn_stats hs]
  rfl

variable (ha : Keeps Proceeds a) (hb : Keeps Proceeds b)
include ha hb

/-- A pipe counts for two children and a channel, whatever happens in its sides. -/
theorem piped_stats (hgranted : Granted m m') (h : piped a b m = .ok s m') :
    m'.proc.stats = m.proc.stats.grown 2 1 := by
  obtain ⟨r, w, m₁, m₂, m₃, hmade⟩ := Granted.exists_pipe ha hb (after_of_ok h ▸ hgranted)
  rw [hmade.piped_eq, finishPipe_none] at h
  obtain ⟨_, m₄, hclose, hwait⟩ := bind_eq_ok.1 h
  have hclosed : SameStats m₃ m₄ := (Keeps.closeAll_sameStats _).of_ok hclose
  rw [awaitStages_stats hwait, hclosed, spawn_stats hmade.right, spawn_stats hmade.left,
    createChannel_stats hmade.channel]
  rfl

/-- A parallel pair counts for two children, whatever happens in its sides. -/
theorem inParallel_stats (hgranted : Granted m m') (h : inParallel a b m = .ok s m') :
    m'.proc.stats = m.proc.stats.grown 2 0 := by
  obtain ⟨m₁, m₂, hx, hy⟩ := Granted.exists_branches ha hb (after_of_ok h ▸ hgranted)
  rw [inParallel_of_spawned hx hy, finishParallel_none] at h
  obtain ⟨ss, m₃, hwait, hjudge⟩ := bind_eq_ok.1 h
  have hjudged : SameStats m₃ m' := (Keeps.judge ss).of_ok hjudge
  rw [hjudged, awaitAll_stats hwait, spawn_stats hy, spawn_stats hx]
  rfl

end Stats

/-- The counts of the running process grow by what it visits itself. -/
def Counts (rules : Rules) (vs : List Visit) (a : Act Status) (m : Machine) : Prop :=
  ∀ s m', a m = .ok s m' → Granted m m' →
    m'.proc.stats = m.proc.stats.grown (rules.forksOf (ownVisits vs)) (pairsOf .pipe (ownVisits vs))

section Operators

variable {rules : Rules} {a b : Act Status} {left right : Machine → List Visit} {m m' : Machine}
  {s : Status} (hap : Keeps Proceeds a) (hbp : Keeps Proceeds b)

include hap hbp in
/-- What happens in the sides of a pipe or of a parallel pair is not counted. -/
theorem forking_counts {op : Operator} (hop : op.forks = true) (vs : List Visit)
    (hgranted : Granted m m') (h : combine op a b m = .ok s m') : m'.proc.stats = m.proc.stats.grown
      (2 + rules.forksOf (ownVisits (vs.map (.under op))))
      ((if op = .pipe then 1 else 0) + pairsOf .pipe (ownVisits (vs.map (.under op)))) := by
  rw [ownVisits_under_of_forks hop]
  rcases Operator.forks_eq_true_iff.1 hop with rfl | rfl
  · exact piped_stats hap hbp hgranted h
  · exact inParallel_stats hap hbp hgranted h

variable (ha : ∀ n, Counts rules (left n) a n) (hb : ∀ n, Counts rules (right n) b n)
include hap hbp ha hb

theorem serial_counts {op : Operator} (hop : op.forks = false) (hgranted : Granted m m')
    (h : combine op a b m = .ok s m') : m'.proc.stats = m.proc.stats.grown
      (rules.forksOf (ownVisits (op.visitSides a b left right m)))
      (pairsOf .pipe (ownVisits (op.visitSides a b left right m))) := by
  rw [Operator.visitSides, leftStart?_of_serial hop, rightStart?_of_serial hop]
  rcases combine_eq_ok_of_serial hop h with
    ⟨-, hl⟩ | ⟨n, m₁, hl, ⟨hskip, -, logger, message, hlog⟩ | ⟨hgo, hr⟩⟩
  · rw [hl]
    simpa using ha m _ _ hl hgranted
  · have hend : Recorded m₁ m' := (Keeps.debug _ _).of_ok hlog
    rw [hl, debug_idle hlog]
    simpa [hskip] using ha m _ _ hl (hgranted.first hend)
  · have hstart : Proceeds m m₁ := hap.of_ok hl
    have hend : Proceeds m₁ m' := hbp.of_ok hr
    have hleft := ha m _ _ hl (hgranted.first hend.recorded)
    have hright := hb m₁ _ _ hr (hgranted.rest hstart)
    rw [hl]
    dsimp only
    rw [if_pos hgo, hright, hleft, Stats.grown_grown]
    show _ = m.proc.stats.grown (rules.forksOf (ownVisits (left m ++ right m₁)))
      (pairsOf .pipe (ownVisits (left m ++ right m₁)))
    rw [ownVisits_append, Rules.forksOf_append, pairsOf_append]

/-- A pair counts for its children and its channel, and a serial one for what its sides count for. -/
theorem combine_counts (op : Operator) (hgranted : Granted m m') (h : combine op a b m = .ok s m') :
    let vs := (op.visitSides a b left right m).map (.under op)
    m'.proc.stats = m.proc.stats.grown ((if op.forks then 2 else 0) + rules.forksOf (ownVisits vs))
      ((if op = .pipe then 1 else 0) + pairsOf .pipe (ownVisits vs)) := by
  intro vs
  cases hop : op.forks with
  | true => exact forking_counts hap hbp hop _ hgranted h
  | false =>
    have hpipe : op ≠ .pipe := by
      rintro rfl
      exact absurd hop (by decide)
    rw [if_neg hpipe, if_neg Bool.false_ne_true, Nat.zero_add, Nat.zero_add]
    show _ = m.proc.stats.grown (rules.forksOf (ownVisits (List.map _ _)))
      (pairsOf .pipe (ownVisits (List.map _ _)))
    rw [map_under_of_serial hop]
    exact serial_counts hap hbp ha hb hop hgranted h

end Operators

/-- A command counts for one child if it is to run as one. -/
theorem execute_leaf_counts (rules : Rules) (mark : Option Nat) (c : Command) (level : Int)
    (m : Machine) : Counts rules [⟨.leaf mark c, m.proc, 0⟩] (execute rules (.leaf mark c) level) m := by
  intro s m' h hgranted
  obtain ⟨s₁, m₁, hrun, hkept⟩ := bind_eq_ok.1 h
  have hend : SameStats m₁ m' := (Keeps.remember_sameStats s₁).of_ok hkept
  have hrecorded : Recorded m₁ m' := (Keeps.remember s₁).of_ok hkept
  have htold : ((Tree.leaf mark c).told level m).proc.stats = m.proc.stats := by
    rw [Tree.told_idle _ level m]
  have hown : ownVisits [⟨.leaf mark c, m.proc, 0⟩] = [⟨.leaf mark c, m.proc, 0⟩] := rfl
  have hpairs : pairsOf .pipe [⟨.leaf mark c, m.proc, 0⟩] = 0 := rfl
  rw [runLeaf_eq] at hrun
  rw [hend, hown, hpairs, Rules.forksOf_leaf, ← htold]
  split
  · next hkind =>
    rw [Rules.perform, hkind] at hrun
    exact runExternal_stats ((hgranted.first hrecorded).rest (Tree.told_proceeds _ level m)) hrun
  · next hkind => exact (Keeps.perform_sameStats hkind c).of_ok hrun

/-- Whatever the tree, the counts grow by what the running process visits. The induction follows the
tree. -/
theorem execute_counts (rules : Rules) (t : Tree) (level : Int) (m : Machine) :
    Counts rules (t.visits rules level m) (execute rules t level) m := by
  induction t generalizing level m with
  | leaf mark c => exact execute_leaf_counts rules mark c level m
  | bare mark => exact fun s m' h => absurd h execute_bare_ne_ok
  | binary mark op l r ihl ihr =>
    intro s m' h hgranted
    have hadmits : rules.Admits op (.binary mark op l r) level := .of_ok h
    have htold : ((Tree.binary mark op l r).told level m).proc.stats = m.proc.stats := by
      rw [Tree.told_idle _ level m]
    rw [execute_of_admits hadmits] at h
    obtain ⟨s₁, m₁, hsides, hrest⟩ := bind_eq_ok.1 h
    obtain ⟨_, m₂, hlog, hkept⟩ := bind_eq_ok.1 hrest
    have hend : SameStats m₂ m' := (Keeps.remember_sameStats s₁).of_ok hkept
    have hrecorded : Recorded m₁ m' :=
      Frame.trans ((Keeps.debug _ _).of_ok hlog) ((Keeps.remember s₁).of_ok hkept)
    have hcounts := combine_counts (execute_proceeds rules l _) (execute_proceeds rules r _)
      (ihl (level + 1)) (ihr (level + 1)) op
      ((hgranted.first hrecorded).rest (Tree.told_proceeds _ level m)) hsides
    rw [hend, debug_idle hlog, hcounts, htold, Tree.visits, if_pos hadmits]
    show _ = m.proc.stats.grown (rules.forksOf (_ :: ownVisits _)) (pairsOf .pipe (_ :: ownVisits _))
    rw [Rules.forksOf_pair, pairsOf_pipe_pair]

/-! ### The whole run -/

/-- What the run of a tree costs: the visits tell how many children all processes make, and those of
the running process what it counts. -/
structure Accounted (rules : Rules) (t : Tree) (level : Int) (m : Machine) : Prop where
  /-- The leaves that any process begins are those that are visited, in their order. -/
  leaves : begun (m.since ((execute rules t level).after m))
    = (t.visits rules level m).filterMap Visit.leaf?
  /-- All processes together make as many children as all visits ask for. -/
  forks : (forks (m.since ((execute rules t level).after m))).length
    = rules.forksOf (t.visits rules level m)
  /-- If the tree answers, the running process counts the children and channels that its own visits
  ask for, and no program. -/
  stats : ∀ s m', execute rules t level m = .ok s m' →
    m'.proc.stats = m.proc.stats.grown (rules.forksOf (ownVisits (t.visits rules level m)))
      (pairsOf .pipe (ownVisits (t.visits rules level m)))

/-- **Main result**: the visits of a tree are the nodes that its run comes to. If no child and no channel
is refused, they tell exactly how many children all processes make and what the running process counts.
A command that is an assignment or built in makes no child, whichever process runs it. -/
theorem execute_accounted :
    (∀ (rules : Rules) (t : Tree) (level : Int) (m : Machine) (v : Visit),
      v ∈ t.visits rules level m ↔ ∃ around k n, v.StandsFor rules t level m around k n) ∧
    (∀ (rules : Rules) (t : Tree) (level : Int) (m : Machine),
      Granted m ((execute rules t level).after m) → Accounted rules t level m) ∧
    ∀ (rules : Rules) (mark : Option Nat) (c : Command) (level : Int) (m : Machine),
      rules.kind (c.verb.expand m.proc.table) ≠ .external →
      forks (m.since ((execute rules (.leaf mark c) level).after m)) = [] := by
  refine ⟨fun rules t level m v => mem_visits_iff, fun rules t level m hgranted => ?_, ?_⟩
  · obtain ⟨es, hes, hleaves, hforks⟩ := execute_lists rules t level m hgranted
    have hsince : m.since ((execute rules t level).after m) = es := Machine.since_eq hes
    refine ⟨hsince ▸ hleaves, hsince ▸ hforks, fun s m' h => ?_⟩
    exact execute_counts rules t level m s m' h (after_of_ok h ▸ hgranted)
  · intro rules mark c level m hkind
    obtain ⟨es, hes, -, hforks⟩ := execute_builtin_produced mark level hkind
    rw [Machine.since_eq hes]
    exact List.eq_nil_of_length_eq_zero hforks

/-- The tree of `(x=1 && (echo | (cat & exit))) ; (cd || cat) ; (y=2 || echo) ; exit ; echo`. -/
def countedTree : Tree :=
  let leaf (verb : String) : Tree := .leaf none ⟨[.lit verb.toList], [], none, none, none⟩
  .binary none .sequential
    (.binary none .conditionalAnd (leaf "x=1")
      (.binary none .pipe (leaf "echo") (.binary none .parallel (leaf "cat") (leaf "exit"))))
    (.binary none .sequential
      (.binary none .sequential (.binary none .conditionalOr (leaf "cd") (leaf "cat"))
        (.binary none .conditionalOr (leaf "y=2") (leaf "echo")))
      (.binary none .sequential (leaf "exit") (leaf "echo")))

/-- That tree in a new session: the last two `echo` are skipped. Of the seven children the session
itself makes three, two for the pipe and one for the second `cat`; the others are made in the pipe. -/
theorem execute_accounted_countedTree :
    let m := Machine.boot .standard FileTree.home [] [] [] []
    let rules : Rules := ⟨true, Operator.all⟩
    let vs := countedTree.visits rules 0 m
    let cd : Command := ⟨[.lit "cd".toList], [], none, none, none⟩
    Granted m ((execute rules countedTree 0).after m) ∧ Accounted rules countedTree 0 m ∧
      (rules.forksOf vs, rules.forksOf (ownVisits vs), pairsOf .pipe (ownVisits vs)) = (7, 3, 1) ∧
      (∃ m', execute rules countedTree 0 m = .ok .terminate m' ∧ m'.proc.stats = ⟨3, 0, 3, 1⟩) ∧
      rules.kind (cd.verb.expand m.proc.table) ≠ .external ∧
      forks (m.since ((execute rules (.leaf none cd) 0).after m)) = [] := by
  intro m rules vs cd
  have hgranted : Granted m ((execute rules countedTree 0).after m) := Or.inl ⟨nofun, nofun⟩
  have haccounted := execute_accounted.2.1 rules countedTree 0 m hgranted
  have hcosts : (rules.forksOf vs, rules.forksOf (ownVisits vs), pairsOf .pipe (ownVisits vs))
      = (7, 3, 1) := by decide +kernel
  have hends : ∃ m', execute rules countedTree 0 m = .ok .terminate m' := by
    have hstatus : (answer? (execute rules countedTree 0 m)).map Prod.fst = some .terminate := by
      decide +kernel
    obtain ⟨⟨s, m'⟩, hrun, rfl⟩ := Option.map_eq_some_iff.1 hstatus
    exact ⟨m', answer?_eq_some.1 hrun⟩
  have hkind : rules.kind (cd.verb.expand m.proc.table) ≠ .external := by decide +kernel
  obtain ⟨m', hrun⟩ := hends
  obtain ⟨-, hown⟩ := Prod.mk.inj hcosts
  obtain ⟨hforks, hpipes⟩ := Prod.mk.inj hown
  refine ⟨hgranted, haccounted, hcosts, ⟨m', hrun, ?_⟩, hkind,
    execute_accounted.2.2 rules none cd 0 m hkind⟩
  rw [haccounted.stats _ m' hrun, hforks, hpipes]
  rfl

end LineShell
