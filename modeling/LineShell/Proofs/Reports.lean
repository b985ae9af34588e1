import LineShell.Proofs.Outcomes

/-!
# What trees report

Where the status of a tree comes from. In the running process it is that of one unit, a leaf or a
pair of children: the last unit that the serial operators above it had run. A pair of children
reports what its sides came to as far as an exit code can tell it. So `-1` is the status of a
command whose child did not exit, and whatever succeeds rests on branches that succeeded.

## The model

* `Tree.told` is the machine in which a command or the sides of a pair begin: what is run has been
  told of.
* `Rules.Admits` is the condition under which a pair is run and not refused.
* `Decides` relates a tree to the subtree whose status is its own, with the machine in which that
  one runs: for each serial operator above, the status of the left side is passed on or the right
  side was run.
* `PairReports` lists how the status of a pair comes about. `Lost` says that a child for a program
  did not exit.
* `Succeeds` says that a tree succeeded because what its status rests on did, down to programs
  that exited with 0.
* `Faithful` puts together what the status of a tree tells of its run.

## What is proved

* A pair that is run tells of it, runs its sides and concludes, and one that is not run is refused
  and nothing happens (`execute_of_admits`, `execute_of_not_admits`). Later modules open a pair by
  these.
* A command tells of its beginning and does what its kind asks for (`runLeaf_eq`,
  `runLeaf_eq_ok`).
* The status of every pair comes about in one of the listed ways (`execute_pairReports`).
* Where the number is `-1`, the unit that decides is a command of the running process whose child
  did not exit (`execute_signaled`), and what succeeds rests on what succeeds
  (`execute_succeeds`). Both are inductions on the tree, the second one into the machines of the
  children.

## What is left out

A pair of children that a failed call hinders answers with a failure, and says nothing of its
sides. What the left side of a pipe came to is never told.
-/

namespace LineShell

open Act

/-! ### Pairs that are run -/

/-- The machine in which a command or the sides of a pair begin: the journal and the log have
told what is run. -/
def Tree.told : Tree → Int → Machine → Machine
  | .leaf mark c, level, m =>
    (debug runner (levelText level ++ "Simple command: ".toList ++ c.shown)).after
      (m.note (.began m.proc mark c))
  | .binary mark op l r, level, m =>
    (debug executor
      (levelText level ++ op.name ++ ": ".toList ++ (Tree.binary mark op l r).shown)).after m
  | .bare _, _, m => m

/-- A pair that is run at a depth: its operator is registered, and at depth 0 none of its nodes is
reached twice. Others are refused. -/
structure Rules.Admits (rules : Rules) (op : Operator) (t : Tree) (level : Int) : Prop where
  /-- The operator is registered. -/
  registered : op ∈ rules.operators
  /-- No node is reached twice. -/
  unshared : level = 0 → t.firstShared = none

/-- Runs a pair at its place, whatever its sides do. -/
def Rules.runNode (rules : Rules) (mark : Option Nat) (op : Operator) (l r : Tree) (level : Int)
    (a b : Act Status) : Act Status := do
  if level = 0 then refuseShared (.binary mark op l r)
  rules.runPair op (Tree.binary mark op l r).shown level a b

theorem exists_remember (s : Status) (m : Machine) : ∃ m', remember s m = .ok s m' := by
  cases s with
  | terminate => exact ⟨m, rfl⟩
  | code n => exact ⟨_, rfl⟩

section Pairs

variable {rules : Rules} {mark : Option Nat} {op : Operator} {l r : Tree} {level : Int}
  {m m₁ m' : Machine} {s : Status}

/-- The end of a pair: its status is logged and kept. -/
theorem exists_conclude (message : Text) (s : Status) (m : Machine) :
    ∃ m', (do debug executor message; remember s : Act Status) m = .ok s m' := by
  obtain ⟨m₁, hlog, -⟩ := debug_quiet executor message m
  obtain ⟨m', hkept⟩ := exists_remember s m₁
  exact ⟨m', bind_eq_ok.2 ⟨(), m₁, hlog, hkept⟩⟩

/-- A pair that is run tells of it, runs its sides, and concludes. -/
theorem runNode_of_admits (h : rules.Admits op (.binary mark op l r) level) (a b : Act Status)
    (m : Machine) :
    rules.runNode mark op l r level a b m = (combine op a b >>= fun status => do
        debug executor (levelText level ++ op.name ++ " -> ".toList ++ status.shown)
        remember status) ((Tree.binary mark op l r).told level m) := by
  have hpair : rules.runNode mark op l r level a b =
      rules.runPair op (Tree.binary mark op l r).shown level a b := by
    rw [Rules.runNode]
    split
    · next hlevel =>
      rw [refuseShared, h.unshared hlevel]
      rfl
    · rfl
  obtain ⟨m₁, hlog, -⟩ := debug_quiet executor
    (levelText level ++ op.name ++ ": ".toList ++ (Tree.binary mark op l r).shown) m
  have htold : (Tree.binary mark op l r).told level m = m₁ := after_of_ok hlog
  rw [hpair, htold, Rules.runPair, Rules.refuseMissing_of_mem h.registered]
  show (debug executor _ >>= _) m = _
  rw [bind_eq, hlog]

theorem execute_of_admits (h : rules.Admits op (.binary mark op l r) level) (m : Machine) :
    execute rules (.binary mark op l r) level m =
      (combine op (execute rules l (level + 1)) (execute rules r (level + 1)) >>= fun status => do
        debug executor (levelText level ++ op.name ++ " -> ".toList ++ status.shown)
        remember status) ((Tree.binary mark op l r).told level m) :=
  runNode_of_admits h _ _ m

/-- Only a pair that is run answers. -/
theorem Rules.Admits.of_ok (h : execute rules (.binary mark op l r) level m = .ok s m') :
    rules.Admits op (.binary mark op l r) level := by
  unfold execute at h
  split at h
  · next hlevel =>
    obtain ⟨_, m₁, hrefuse, h⟩ := bind_eq_ok.1 h
    refine ⟨registered_of_runPair h, fun _ => ?_⟩
    simpa using (refuse_eq_ok hrefuse).1
  · next hlevel => exact ⟨registered_of_runPair h, fun hzero => absurd hzero hlevel⟩

/-- A pair that is not run is refused, and nothing happens. -/
theorem execute_of_not_admits (h : ¬ rules.Admits op (.binary mark op l r) level) (m : Machine) :
    ∃ failure, execute rules (.binary mark op l r) level m = .error failure m := by
  have hpair (hop : op ∉ rules.operators) (a b : Act Status) : ∃ failure,
      rules.runPair op (Tree.binary mark op l r).shown level a b m = .error failure m := by
    refine ⟨.noCombinator op, ?_⟩
    rw [Rules.runPair, Rules.refuseMissing, if_neg hop]
    rfl
  unfold execute
  split
  · next hlevel =>
    rw [bind_eq, refuseShared]
    cases hshared : (Tree.binary mark op l r).firstShared with
    | some shared => exact ⟨_, rfl⟩
    | none => exact hpair (fun hop => h ⟨hop, fun _ => hshared⟩) _ _
  · next hlevel => exact hpair (fun hop => h ⟨hop, fun hzero => absurd hzero hlevel⟩) _ _

/-- A pair that is run answers as its sides do together. -/
theorem execute_pair_eq_ok (h : execute rules (.binary mark op l r) level m = .ok s m') :
    ∃ m₁, combine op (execute rules l (level + 1)) (execute rules r (level + 1))
      ((Tree.binary mark op l r).told level m) = .ok s m₁ := by
  rw [execute_of_admits (.of_ok h)] at h
  obtain ⟨s₁, m₁, hsides, hrest⟩ := bind_eq_ok.1 h
  obtain ⟨m₂, hend⟩ :=
    exists_conclude (levelText level ++ op.name ++ " -> ".toList ++ s₁.shown) s₁ m₁
  obtain ⟨rfl, -⟩ := EStateM.Result.ok.inj (hrest.symm.trans hend)
  exact ⟨m₁, hsides⟩

theorem execute_pair_of_ok (h : rules.Admits op (.binary mark op l r) level)
    (hsides : combine op (execute rules l (level + 1)) (execute rules r (level + 1))
      ((Tree.binary mark op l r).told level m) = .ok s m₁) :
    ∃ m', execute rules (.binary mark op l r) level m = .ok s m' := by
  obtain ⟨m', hend⟩ :=
    exists_conclude (levelText level ++ op.name ++ " -> ".toList ++ s.shown) s m₁
  refine ⟨m', ?_⟩
  rw [execute_of_admits h]
  exact bind_eq_ok.2 ⟨s, m₁, hsides, hend⟩

end Pairs

/-! ### The running process -/

/-- The running process still has its number. -/
def SamePid (m m' : Machine) : Prop := m'.proc.pid = m.proc.pid

instance : Frame SamePid := ⟨fun _ => rfl, fun hab hbc => hbc.trans hab⟩

instance : Kernel SamePid := ⟨fun _ => rfl⟩

instance : Forgetful SamePid := ⟨fun h => h.pid⟩

instance : Parental SamePid where
  rebound h := h.pid
  birth := by
    rintro _ _ _ _ - ⟨dead, -, hq⟩
    exact hq.same.pid
  await pid := .await pid

/-- A tree is run by the process that was told to: its children work under other numbers. -/
theorem execute_samePid (rules : Rules) (t : Tree) (level : Int) :
    Keeps SamePid (execute rules t level) := by
  have hset {f : Proc → Proc} (hf : ∀ p, (f p).pid = p.pid) : Keeps SamePid (modifyProc f) :=
    fun m => hf m.proc
  refine .execute_parental (fun mark c level => ?_) t level
  refine .runLeaf_of (fun _ _ _ => rfl) (fun _ _ => hset fun _ => rfl) (fun c => ?_)
    (fun c => ?_) rules mark c level
  · exact .changeDirectory_of .getcwd (fun _ => .chdir_of (fun _ _ => rfl) fun _ _ => rfl)
      (fun _ _ _ => hset fun _ => rfl) c
  · refine .runExternal_parental ?_
    exact Keeps.runChild_of (R := SamePid) (fun _ _ h => h.pid) (fun _ _ => rfl) (fun _ _ => rfl) c

/-! ### The unit that decides -/

/-- A subtree decides a tree: the status of the tree, run from a machine on, is that of the
subtree, run from another one on, for each serial operator above it either passes the status of
its left side on or has its right side run. -/
inductive Decides (rules : Rules) : Tree → Int → Machine → Tree → Int → Machine → Prop where
  /-- A tree decides itself. -/
  | self (t : Tree) (level : Int) (m : Machine) : Decides rules t level m t level m
  /-- The right side is skipped. -/
  | left {mark : Option Nat} {op : Operator} {l r u : Tree} {level k : Int} {m m₁ n : Machine}
      {number : Int} (hop : op.forks = false)
      (hl : execute rules l (level + 1) ((Tree.binary mark op l r).told level m)
        = .ok (.code number) m₁)
      (hskip : op.admits number = false)
      (h : Decides rules l (level + 1) ((Tree.binary mark op l r).told level m) u k n) :
      Decides rules (.binary mark op l r) level m u k n
  /-- The right side is run. -/
  | right {mark : Option Nat} {op : Operator} {l r u : Tree} {level k : Int} {m m₁ n : Machine}
      {number : Int} (hop : op.forks = false)
      (hl : execute rules l (level + 1) ((Tree.binary mark op l r).told level m)
        = .ok (.code number) m₁)
      (hgo : op.admits number = true) (h : Decides rules r (level + 1) m₁ u k n) :
      Decides rules (.binary mark op l r) level m u k n

/-! ### The machines that sides begin in -/

/-- To tell that a tree begins keeps what the log keeps, and what the beginning of a command does. -/
theorem Tree.told_of {R : Machine → Machine → Prop} [Logs R]
    (hbegan : ∀ (m : Machine) mark c, R m (m.note (.began m.proc mark c))) (t : Tree) (level : Int)
    (m : Machine) : R m (t.told level m) := by
  cases t with
  | leaf mark c => exact Frame.trans (hbegan m mark c) (Keeps.debug runner _ _)
  | binary mark op l r => exact Keeps.debug executor _ m
  | bare mark => exact Frame.refl m

theorem Tree.told_followed (t : Tree) (level : Int) (m : Machine) : Followed m (t.told level m) :=
  t.told_of (fun m _ _ => World.Follows.note m.world _) level m

/-- To tell that a tree begins leaves the running process as it is. -/
theorem Tree.told_idle (t : Tree) (level : Int) (m : Machine) : Idle m (t.told level m) :=
  t.told_of (fun _ _ _ => rfl) level m

theorem Tree.told_samePid (t : Tree) (level : Int) (m : Machine) : SamePid m (t.told level m) :=
  congrArg Proc.pid (t.told_idle level m)

section Children

variable {a b : Act Status} {m k n : Machine}

theorem PipeRuns.sane (ha : Keeps Followed a) (h : PipeRuns a b m k) (hs : m.world.Sane) :
    k.world.Sane := by
  obtain ⟨r, w, m₁, m₂, m₃, raw, hc, ⟨-, hbx⟩, -, hbind⟩ := h
  have hchannel := Keeps.createChannel.of_ok hc
  have hleft : Followed m₁ m₂ := (hbx.followed (pipeSides_followed ha ha r w).1).1
  have hbound := (Keeps.bindStream r 0 [r, w]).of_ok hbind
  exact hbound.followed.sane (m₂.followed_born.sane (hleft.sane (hchannel.followed.sane hs)))

theorem ParallelRuns.sane (ha : Keeps Followed a) (h : ParallelRuns a b m n) (hs : m.world.Sane) :
    m.born.world.Sane ∧ n.born.world.Sane := by
  have hleft : Followed m n := (h.1.2.followed (sideWork_followed ha)).1
  exact ⟨m.followed_born.sane hs, n.followed_born.sane (hleft.sane hs)⟩

end Children

/-! ### What a pair reports -/

/-- How the status of a pair comes about whose sides begin in `m`. -/
inductive PairReports (rules : Rules) (l r : Tree) (level : Int) (m : Machine) :
    Operator → Status → Prop where
  /-- The left side ended the session. -/
  | ended {op : Operator} (hop : op.forks = false) : PairReports rules l r level m op .terminate
  /-- The number of the left side has the right one skipped. -/
  | skipped {op : Operator} {number : Int} {m₁ : Machine} (hop : op.forks = false)
      (hl : execute rules l (level + 1) m = .ok (.code number) m₁)
      (hskip : op.admits number = false) : PairReports rules l r level m op (.code number)
  /-- The number of the left side has the right one run. -/
  | went {op : Operator} {number : Int} {s : Status} {m₁ m₂ : Machine} (hop : op.forks = false)
      (hl : execute rules l (level + 1) m = .ok (.code number) m₁)
      (hgo : op.admits number = true) (hr : execute rules r (level + 1) m₁ = .ok s m₂) :
      PairReports rules l r level m op s
  /-- A child could not be made, bound or joined to the other. -/
  | hindered {op : Operator} (hop : op.forks = true) : PairReports rules l r level m op .failure
  /-- The right side of a pipe exited. -/
  | pipe {k : Machine}
      (hruns : PipeRuns (execute rules l (level + 1)) (execute rules r (level + 1)) m k) :
      PairReports rules l r level m .pipe (.code (sideCode (execute rules r (level + 1) k)))
  /-- Both sides of a parallel pair exited. -/
  | parallel {n : Machine}
      (hruns : ParallelRuns (execute rules l (level + 1)) (execute rules r (level + 1)) m n) :
      PairReports rules l r level m .parallel
        (verdict (execute rules l (level + 1) m.born) (execute rules r (level + 1) n.born))

/-- Whatever fails, the status of a pair that answers comes about in one of these ways. -/
theorem execute_pairReports {rules : Rules} {mark : Option Nat} {op : Operator} {l r : Tree}
    {level : Int} {m m' : Machine} {s : Status} (hs : m.world.Sane)
    (h : execute rules (.binary mark op l r) level m = .ok s m') :
    PairReports rules l r level ((Tree.binary mark op l r).told level m) op s := by
  have hsane := ((Tree.binary mark op l r).told_followed level m).sane hs
  have hfollowed (u : Tree) : Keeps Followed (execute rules u (level + 1)) :=
    execute_followed rules u (level + 1)
  obtain ⟨m₁, hsides⟩ := execute_pair_eq_ok h
  cases hop : op.forks with
  | false =>
    rcases combine_eq_ok_of_serial hop hsides with ⟨rfl, -⟩ | ⟨number, m₂, hl, hrest⟩
    · exact .ended hop
    · rcases hrest with ⟨hskip, rfl, -⟩ | ⟨hgo, hr⟩
      · exact .skipped hop hl hskip
      · exact .went hop hl hgo hr
  | true =>
    cases op with
    | pipe =>
      rcases piped_outcome (hfollowed l) (hfollowed r) hsane with hhindered | ⟨k, n, hruns, hok⟩
      · obtain rfl := hhindered.2 s m₁ hsides
        exact .hindered hop
      · obtain ⟨rfl, -⟩ := EStateM.Result.ok.inj (hok.symm.trans hsides)
        exact .pipe hruns
    | parallel =>
      rcases inParallel_outcome (hfollowed l) (hfollowed r) hsane with
        hhindered | ⟨k, n, hruns, hok⟩
      · obtain rfl := hhindered.2 s m₁ hsides
        exact .hindered hop
      · obtain ⟨rfl, -⟩ := EStateM.Result.ok.inj (hok.symm.trans hsides)
        exact .parallel hruns
    | sequential => exact nomatch hop
    | conditionalAnd => exact nomatch hop
    | conditionalOr => exact nomatch hop

/-! ### Leaves -/

/-- What an assignment does once its beginning is told. -/
def setVariable (name value : Text) : Act Status := do
  modifyProc fun p => { p with table := p.table.set name value }
  debug runner ("Set variable: ".toList ++ name ++ ['='] ++ value)
  return .success

/-- What `exit` and `quit` do once their beginning is told. -/
def endSession (verb : Text) : Act Status := do
  info runner (['\x27'] ++ verb ++ "' requested session termination".toList)
  return .terminate

/-- What a command does once its beginning is told. -/
def Rules.perform (rules : Rules) (c : Command) (verb : Text) : Act Status :=
  match rules.kind verb with
  | .assignment name value => setVariable name value
  | .change => changeDirectory c
  | .finish => endSession verb
  | .external => runExternal c

/-- A command tells of its beginning, and then does what its kind asks for. -/
theorem runLeaf_eq (rules : Rules) (mark : Option Nat) (c : Command) (level : Int) (m : Machine) :
    runLeaf rules mark c level m
      = rules.perform c (c.verb.expand m.proc.table) ((Tree.leaf mark c).told level m) := by
  obtain ⟨n, hlog, -⟩ := debug_quiet runner
    (levelText level ++ "Simple command: ".toList ++ c.shown) (m.note (.began m.proc mark c))
  have htold : (Tree.leaf mark c).told level m = n := after_of_ok hlog
  show (debug runner _ >>= _ : Act Status) (m.note (.began m.proc mark c)) = _
  rw [bind_eq, hlog, htold]
  rfl

/-- A command that is a program tells of its beginning, and is run by a child. -/
theorem execute_external {rules : Rules} {c : Command} {m : Machine} (mark : Option Nat) (level : Int)
    (hkind : rules.kind (c.verb.expand m.proc.table) = .external) :
    execute rules (.leaf mark c) level m
      = (runExternal c >>= remember) ((Tree.leaf mark c).told level m) := by
  show (runLeaf rules mark c level >>= remember) m = _
  rw [bind_eq, bind_eq, runLeaf_eq, Rules.perform, hkind]

theorem setVariable_yields (name value : Text) : Yields (· = .success) (setVariable name value) :=
  .behind _ fun _ => .behind _ fun _ => .pure rfl

theorem endSession_yields (verb : Text) : Yields (· = .terminate) (endSession verb) :=
  .behind _ fun _ => .pure rfl

theorem withoutChild_yields (c : Command) (e : Errno) : Yields (· = .failure) (withoutChild c e) :=
  .behind _ fun _ => .behind _ fun _ => .pure rfl

/-- A command that is no program succeeds, fails or ends the session. A program is run by a child of
the running process, and its status is the end of that child, or a failure where there is none. -/
theorem runLeaf_eq_ok {rules : Rules} {mark : Option Nat} {c : Command} {level : Int}
    {m m' : Machine} {s : Status} (hs : m.world.Sane) (h : runLeaf rules mark c level m = .ok s m') :
    (rules.kind (c.verb.expand m.proc.table) ≠ .external ∧
      (s = .terminate ∨ s = .success ∨ s = .failure)) ∨
    rules.kind (c.verb.expand m.proc.table) = .external ∧ (s = .failure ∨
      ∃ raw n, Birth (runChild c) raw ((Tree.leaf mark c).told level m) n ∧
        s = (Ending.ofRaw raw).status) := by
  have hsane := ((Tree.leaf mark c).told_followed level m).sane hs
  rw [runLeaf_eq, Rules.perform] at h
  cases hkind : rules.kind (c.verb.expand m.proc.table) with
  | assignment name value =>
    rw [hkind] at h
    exact Or.inl ⟨nofun, Or.inr (Or.inl (setVariable_yields name value _ _ _ h))⟩
  | change =>
    rw [hkind] at h
    exact Or.inl ⟨nofun, Or.inr (changeDirectory_yields c _ _ _ h)⟩
  | finish =>
    rw [hkind] at h
    exact Or.inl ⟨nofun, Or.inl (endSession_yields _ _ _ _ h)⟩
  | external =>
    rw [hkind] at h
    refine Or.inr ⟨rfl, ?_⟩
    rcases runExternal_cases c ((Tree.leaf mark c).told level m) with
      ⟨e, hr⟩ | ⟨raw, m₁, hb, hr⟩
    · exact Or.inl (withoutChild_yields c e _ _ _ (hr.symm.trans h))
    · exact Or.inr ⟨raw, m₁, hb,
        (await_eq_ok (hb.find? (.runChild_followed c) hsane) (hr.symm.trans h)).1⟩

/-- The running process made a child for a program, and that child did not exit. -/
def Lost (rules : Rules) (mark : Option Nat) (c : Command) (level : Int) (m : Machine) : Prop :=
  rules.kind (c.verb.expand m.proc.table) = .external ∧
    ∃ raw n, Birth (runChild c) raw ((Tree.leaf mark c).told level m) n ∧
      ∀ code, Ending.ofRaw raw ≠ .exited code

section Trees

variable {rules : Rules} {t : Tree} {level : Int} {m m' : Machine}

theorem execute_leaf_eq_ok {mark : Option Nat} {c : Command} {s : Status}
    (h : execute rules (.leaf mark c) level m = .ok s m') :
    ∃ m₁, runLeaf rules mark c level m = .ok s m₁ := by
  obtain ⟨s₁, m₁, hrun, hrest⟩ := bind_eq_ok.1 h
  obtain ⟨m₂, hkept⟩ := exists_remember s₁ m₁
  obtain ⟨rfl, -⟩ := EStateM.Result.ok.inj (hrest.symm.trans hkept)
  exact ⟨m₁, hrun⟩

theorem execute_bare_ne_ok {mark : Option Nat} {s : Status} :
    execute rules (.bare mark) level m ≠ .ok s m' :=
  fun h => nomatch (h : EStateM.Result.error _ _ = _)

/-- Where the number of a tree is `-1`, the unit that decides it is a command, run by the running
process, whose child did not exit. The induction follows the tree: a pair of children answers with
an exit code, and a serial pair with the number of a side. -/
theorem execute_signaled {s : Status} (hs : m.world.Sane) (h : execute rules t level m = .ok s m')
    (hsignaled : s = .signaled) :
    ∃ mark c k n, Decides rules t level m (.leaf mark c) k n ∧ n.proc.pid = m.proc.pid ∧
      Lost rules mark c k n := by
  induction t generalizing level m m' s with
  | leaf mark c =>
    obtain ⟨m₁, hrun⟩ := execute_leaf_eq_ok h
    refine ⟨mark, c, level, m, .self _ _ _, rfl, ?_⟩
    subst hsignaled
    rcases runLeaf_eq_ok hs hrun with ⟨-, hstatus⟩ | ⟨hkind, hfailure | ⟨raw, n, hb, hstatus⟩⟩
    · simp [Status.signaled, Status.success, Status.failure] at hstatus
    · simp [Status.signaled, Status.failure] at hfailure
    · refine ⟨hkind, raw, n, hb, fun code hcode => ?_⟩
      rw [hcode] at hstatus
      simp [Status.signaled, Ending.status] at hstatus
  | bare mark => exact absurd h execute_bare_ne_ok
  | binary mark op l r ihl ihr =>
    have hsane := ((Tree.binary mark op l r).told_followed level m).sane hs
    have hpid := (Tree.binary mark op l r).told_samePid level m
    cases execute_pairReports hs h with
    | ended hop => exact absurd hsignaled (by decide)
    | skipped hop hl hskip =>
      obtain ⟨mark', c, k, n, hd, hpid', hlost⟩ := ihl hsane hl hsignaled
      exact ⟨mark', c, k, n, .left hop hl hskip hd, hpid'.trans hpid, hlost⟩
    | went hop hl hgo hr =>
      have hleft := execute_followed rules l (level + 1) ((Tree.binary mark op l r).told level m)
      have hpid₁ := execute_samePid rules l (level + 1) ((Tree.binary mark op l r).told level m)
      rw [after_of_ok hl] at hleft hpid₁
      obtain ⟨mark', c, k, n, hd, hpid', hlost⟩ := ihr (hleft.sane hsane) hr hsignaled
      exact ⟨mark', c, k, n, .right hop hl hgo hd, hpid'.trans (hpid₁.trans hpid), hlost⟩
    | hindered hop => exact absurd hsignaled (by decide)
    | pipe hruns => simp [Status.signaled] at hsignaled
    | parallel hruns =>
      unfold verdict at hsignaled
      split at hsignaled <;> exact absurd hsignaled (by decide)

end Trees

/-! ### Success -/

/-- A tree succeeds because what its status rests on succeeds, down to the leaves: a program that
exited with 0, the side that decides a serial pair, the right side of a pipe in its child, and both
sides of a parallel pair in theirs. -/
inductive Succeeds (rules : Rules) : Tree → Int → Machine → Prop where
  /-- A command succeeded; a program did if its child exited with 0. -/
  | leaf {mark : Option Nat} {c : Command} {level : Int} {m m' : Machine}
      (h : runLeaf rules mark c level m = .ok .success m')
      (hchild : rules.kind (c.verb.expand m.proc.table) = .external →
        ∃ raw n, Birth (runChild c) raw ((Tree.leaf mark c).told level m) n ∧
          Ending.ofRaw raw = .exited 0) : Succeeds rules (.leaf mark c) level m
  /-- The left side succeeded, so that the right one was skipped. -/
  | skipped {mark : Option Nat} {op : Operator} {l r : Tree} {level : Int} {m m₁ : Machine}
      (hop : op.forks = false) (hskip : op.admits 0 = false)
      (hl : execute rules l (level + 1) ((Tree.binary mark op l r).told level m)
        = .ok .success m₁)
      (h : Succeeds rules l (level + 1) ((Tree.binary mark op l r).told level m)) :
      Succeeds rules (.binary mark op l r) level m
  /-- The right side was run in the running process, and succeeded. -/
  | went {mark : Option Nat} {op : Operator} {l r : Tree} {level : Int} {m m₁ m₂ : Machine}
      {number : Int} (hop : op.forks = false) (hgo : op.admits number = true)
      (hl : execute rules l (level + 1) ((Tree.binary mark op l r).told level m)
        = .ok (.code number) m₁)
      (hr : execute rules r (level + 1) m₁ = .ok .success m₂)
      (h : Succeeds rules r (level + 1) m₁) : Succeeds rules (.binary mark op l r) level m
  /-- The right side of a pipe succeeded in its child. -/
  | pipe {mark : Option Nat} {l r : Tree} {level : Int} {m k n : Machine}
      (hruns : PipeRuns (execute rules l (level + 1)) (execute rules r (level + 1))
        ((Tree.binary mark .pipe l r).told level m) k)
      (hr : execute rules r (level + 1) k = .ok .success n)
      (h : Succeeds rules r (level + 1) k) : Succeeds rules (.binary mark .pipe l r) level m
  /-- Both sides of a parallel pair succeeded in their children. -/
  | parallel {mark : Option Nat} {l r : Tree} {level : Int} {m n x y : Machine}
      (hruns : ParallelRuns (execute rules l (level + 1)) (execute rules r (level + 1))
        ((Tree.binary mark .parallel l r).told level m) n)
      (hl : execute rules l (level + 1) ((Tree.binary mark .parallel l r).told level m).born
        = .ok .success x)
      (hr : execute rules r (level + 1) n.born = .ok .success y)
      (hleft : Succeeds rules l (level + 1) ((Tree.binary mark .parallel l r).told level m).born)
      (hright : Succeeds rules r (level + 1) n.born) :
      Succeeds rules (.binary mark .parallel l r) level m

/-- The pair succeeded if and only if both sides did. -/
theorem verdict_eq_success_iff (rules : Rules) (l r : Tree) (level : Int) (m n : Machine) :
    verdict (execute rules l level m) (execute rules r level n) = .success ↔
      (∃ x, execute rules l level m = .ok .success x) ∧
        ∃ y, execute rules r level n = .ok .success y := by
  rw [← sideCode_eq_zero_iff, ← sideCode_eq_zero_iff]
  unfold verdict
  split
  · next h => exact iff_of_true rfl h
  · next h => exact iff_of_false (by decide) h

/-- An exit code is success where it is 0. -/
theorem code_eq_success_iff {code : Nat} : Status.code code = .success ↔ code = 0 := by
  simp [Status.success]

/-- What succeeds rests on what succeeds. The induction follows the tree, into the machines of its
children, which are sane as well. -/
theorem execute_succeeds {rules : Rules} {t : Tree} {level : Int} {m m' : Machine} {s : Status}
    (hs : m.world.Sane) (h : execute rules t level m = .ok s m') (hsuccess : s = .success) :
    Succeeds rules t level m := by
  induction t generalizing level m m' s with
  | leaf mark c =>
    subst hsuccess
    obtain ⟨m₁, hrun⟩ := execute_leaf_eq_ok h
    refine .leaf hrun fun hexternal => ?_
    rcases runLeaf_eq_ok hs hrun with ⟨hkind, -⟩ | ⟨-, hfailure | ⟨raw, n, hb, hstatus⟩⟩
    · exact absurd hexternal hkind
    · exact absurd hfailure (by decide)
    · refine ⟨raw, n, hb, ?_⟩
      cases hending : Ending.ofRaw raw with
      | exited code =>
        rw [hending] at hstatus
        rw [code_eq_success_iff.1 hstatus.symm]
      | killed signal =>
        rw [hending] at hstatus
        have hsignaled : Status.success = .signaled := hstatus
        exact absurd hsignaled (by decide)
      | stopped =>
        rw [hending] at hstatus
        exact absurd hstatus (by decide)
  | bare mark => exact absurd h execute_bare_ne_ok
  | binary mark op l r ihl ihr =>
    have hsane := ((Tree.binary mark op l r).told_followed level m).sane hs
    have hfollowed := execute_followed rules l (level + 1)
    cases execute_pairReports hs h with
    | ended hop => exact absurd hsuccess (by decide)
    | skipped hop hl hskip =>
      obtain rfl := Status.code.inj hsuccess
      exact .skipped hop hskip hl (ihl hsane hl hsuccess)
    | went hop hl hgo hr =>
      have hleft := hfollowed.of_ok hl
      have hright := ihr (hleft.sane hsane) hr hsuccess
      subst hsuccess
      exact .went hop hgo hl hr hright
    | hindered hop => exact absurd hsuccess (by decide)
    | pipe hruns =>
      obtain ⟨n, hr⟩ := (sideCode_eq_zero_iff _ _ _ _).1 (code_eq_success_iff.1 hsuccess)
      exact .pipe hruns hr (ihr (hruns.sane hfollowed hsane) hr rfl)
    | parallel hruns =>
      obtain ⟨⟨x, hl⟩, y, hr⟩ := (verdict_eq_success_iff _ _ _ _ _ _).1 hsuccess
      obtain ⟨hleft, hright⟩ := hruns.sane hfollowed hsane
      exact .parallel hruns hl hr (ihl hleft hl rfl) (ihr hright hr rfl)

/-! ### Trees as their makers see them -/

/-- The status that a pipe passes on of what its right side comes to: bytes as they are, `-1` and the
end of the session as exit codes, and 1 where the side fails. -/
def carried : EStateM.Result Failure Machine Status → Status
  | .ok .terminate _ => .code 156
  | .ok (.code n) _ => if n = -1 then .code 255 else .code n
  | .error _ _ => .code 1

/-- Every exit code tells what the tree came to. -/
theorem code_sideCode (rules : Rules) (t : Tree) (level : Int) (m : Machine) :
    .code (sideCode (execute rules t level m)) = carried (execute rules t level m) := by
  have hrange := execute_inRange rules t level m
  cases hr : execute rules t level m with
  | error e n => rfl
  | ok s n =>
    cases s with
    | terminate => rfl
    | code number =>
      have hnumber : number = -1 ∨ 0 ≤ number ∧ number < 256 := hrange _ n hr
      show Status.code ((number % 256).toNat : Int) = if number = -1 then .code 255 else .code number
      split
      · next h =>
        subst h
        rfl
      · next h =>
        congr 1
        omega

/-- A pair of children that is run and for which no call hinders ends as its sides do. -/
theorem unhindered_sides {rules : Rules} {mark : Option Nat} {op : Operator} {l r : Tree}
    {level : Int} {m : Machine} (hadmits : rules.Admits op (.binary mark op l r) level)
    (hfree : ∀ e ∈ m.since ((execute rules (.binary mark op l r) level).after m), ¬ e.Hinders) :
    ∀ e ∈ ((Tree.binary mark op l r).told level m).since
      ((combine op (execute rules l (level + 1)) (execute rules r (level + 1))).after
        ((Tree.binary mark op l r).told level m)), ¬ e.Hinders := by
  intro e he
  have hstart : Recorded m ((Tree.binary mark op l r).told level m) :=
    ((Tree.binary mark op l r).told_followed level m).journal
  refine hfree e (hstart.mem_rest (Recorded.mem_first ?_ he))
  rw [after_eq_of_eq (execute_of_admits hadmits m)]
  exact Keeps.rest (fun s => .bind (.debug _ _) fun _ => .remember s) _

/-- What the status of a tree tells of its run. -/
structure Faithful (rules : Rules) (t : Tree) (level : Int) (m : Machine) : Prop where
  /-- The status is the end of the session, a byte, or `-1`. -/
  range : ∀ s m', execute rules t level m = .ok s m' → s.InRange
  /-- It is `-1` only where the unit that decides it is a program that the running process itself
  made a child for, which did not exit. -/
  signaled : ∀ m', execute rules t level m = .ok .signaled m' →
    ∃ mark c k n, Decides rules t level m (.leaf mark c) k n ∧ n.proc.pid = m.proc.pid ∧
      Lost rules mark c k n
  /-- Where no call hinders, a pipe answers with the exit code of what its right side comes to in its
  child, which is that of the side but for `-1` and the end of the session. -/
  pipe : ∀ mark l r, t = .binary mark .pipe l r → rules.Admits .pipe t level →
    (∀ e ∈ m.since ((execute rules t level).after m), ¬ e.Hinders) →
    ∃ k m', PipeRuns (execute rules l (level + 1)) (execute rules r (level + 1)) (t.told level m) k ∧
      execute rules t level m = .ok (.code (sideCode (execute rules r (level + 1) k))) m' ∧
      .code (sideCode (execute rules r (level + 1) k)) = carried (execute rules r (level + 1) k)
  /-- Where no call hinders, a parallel pair succeeds if both of its sides succeed in their children,
  and fails otherwise. -/
  parallel : ∀ mark l r, t = .binary mark .parallel l r → rules.Admits .parallel t level →
    (∀ e ∈ m.since ((execute rules t level).after m), ¬ e.Hinders) →
    ∃ n s m', ParallelRuns (execute rules l (level + 1)) (execute rules r (level + 1))
        (t.told level m) n ∧
      execute rules t level m = .ok s m' ∧ (s = .success ∨ s = .failure) ∧
      (s = .success ↔ (∃ x, execute rules l (level + 1) (t.told level m).born = .ok .success x) ∧
        ∃ y, execute rules r (level + 1) n.born = .ok .success y)
  /-- Whatever fails, success rests on branches that succeeded, at any depth. -/
  success : ∀ m', execute rules t level m = .ok .success m' → Succeeds rules t level m

/-- **Main result**: whatever the tree and whichever calls fail, its status is faithful to the
children that its run made. -/
theorem execute_faithful (rules : Rules) (t : Tree) (level : Int) (m : Machine)
    (hs : m.world.Sane) : Faithful rules t level m where
  range := execute_inRange rules t level m
  signaled m' h := execute_signaled hs h rfl
  pipe mark l r ht hadmits hfree := by
    subst ht
    have hfollowed (u : Tree) := execute_followed rules u (level + 1)
    have hsane := ((Tree.binary mark .pipe l r).told_followed level m).sane hs
    rcases piped_outcome (hfollowed l) (hfollowed r) hsane with ⟨hhindered, -⟩ | ⟨k, m₁, hruns, hok⟩
    · obtain ⟨x, hx, hhinders⟩ := hhindered
      exact absurd hhinders (unhindered_sides hadmits hfree x hx)
    · obtain ⟨m', hend⟩ := execute_pair_of_ok hadmits hok
      exact ⟨k, m', hruns, hend, code_sideCode rules r (level + 1) k⟩
  parallel mark l r ht hadmits hfree := by
    subst ht
    have hfollowed (u : Tree) := execute_followed rules u (level + 1)
    have hsane := ((Tree.binary mark .parallel l r).told_followed level m).sane hs
    rcases inParallel_outcome (hfollowed l) (hfollowed r) hsane with
      ⟨hhindered, -⟩ | ⟨n, m₁, hruns, hok⟩
    · obtain ⟨x, hx, hhinders⟩ := hhindered
      exact absurd hhinders (unhindered_sides hadmits hfree x hx)
    · obtain ⟨m', hend⟩ := execute_pair_of_ok hadmits hok
      refine ⟨n, _, m', hruns, hend, ?_, verdict_eq_success_iff rules l r (level + 1) _ _⟩
      unfold verdict
      split
      · exact Or.inl rfl
      · exact Or.inr rfl
  success m' h := execute_succeeds hs h rfl

/-- The tree of `exit | die 9`. -/
def exitAndDie : Tree :=
  .binary none .pipe (.leaf none ⟨[.lit "exit".toList], [], none, none, none⟩)
    (.leaf none ⟨[.lit "die".toList], [[.lit "9".toList]], none, none, none⟩)

/-- That tree in a new session. The program of the right side is killed, which its side tells by
`-1`, and the pipe by 255. -/
theorem execute_faithful_exitAndDie :
    let m := Machine.boot .standard FileTree.home [] [] [] []
    m.world.Sane ∧ Faithful ⟨true, [.pipe]⟩ exitAndDie 0 m ∧
      ∃ m', execute ⟨true, [.pipe]⟩ exitAndDie 0 m = .ok (.code 255) m' := by
  intro m
  have hs : m.world.Sane := Machine.boot_sane .standard FileTree.home [] [] [] []
  have hfaithful := execute_faithful ⟨true, [.pipe]⟩ exitAndDie 0 m hs
  have hadmits : Rules.Admits ⟨true, [.pipe]⟩ .pipe exitAndDie 0 := ⟨by decide, by decide⟩
  have hfree : ∀ e ∈ m.since ((execute ⟨true, [.pipe]⟩ exitAndDie 0).after m), ¬ e.Hinders := by
    decide +kernel
  have hcode : sideCode (execute ⟨true, [.pipe]⟩ exitAndDie 0 m) = 255 := by decide +kernel
  obtain ⟨k, m', -, hok, -⟩ := hfaithful.pipe _ _ _ rfl hadmits hfree
  rw [hok, sideCode_code_sideCode] at hcode
  rw [hcode] at hok
  exact ⟨hs, hfaithful, m', hok⟩

end LineShell
