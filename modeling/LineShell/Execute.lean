import LineShell.Leaf

/-!
# Trees

How a tree runs. Serial operators run their sides in the running process, one after the other, and
stop when the session is to end. Pipes and parallel pairs run each side in a child, which can
report only an exit code, so nothing that happens in a side reaches the running process but its
status and what all processes share.

## The model

* `inSequence`, `ifSucceeds` and `ifFails` are the serial operators. They are actions on the sides
  as actions, and they know nothing of trees.
* `piped` and `inParallel` make one child for each side, and give up on the second one where the
  first could not be made (`spawnAll`). The children that were made are waited for, left side
  first. A pipe closes both ends of its channel in the running process as soon as no more children
  are to be made.
* `execute` goes down a tree and carries the depth at which a node stands. At depth 0 a pair is
  checked for nodes reached twice; everywhere else the depth shows in the log alone. A pair asks
  that its operator be registered, runs its sides, and keeps the number that they came to.
* `executeOffered` is for values that may be no trees.
-/

namespace LineShell

open Act

/-- Who logs what concerns an operator. -/
def Operator.logger : Operator → Text
  | .sequential => "SequentialCombinator".toList
  | .parallel => "ParallelCombinator".toList
  | .conditionalAnd => "ConditionalAndCombinator".toList
  | .conditionalOr => "ConditionalOrCombinator".toList
  | .pipe => "PipeCombinator".toList

/-! ### Serial operators -/

/-- Runs `left ; right`. -/
def inSequence (left right : Act Status) : Act Status := do
  match ← left with
  | .terminate => return .terminate
  | .code _ => right

/-- Runs `left && right`. Where the right side is skipped the left one's status stays. -/
def ifSucceeds (left right : Act Status) : Act Status := do
  match ← left with
  | .terminate => return .terminate
  | .code n =>
    if n = 0 then right
    else
      debug Operator.conditionalAnd.logger
        ("Left side failed (".toList ++ intText n ++ "), skipping right side".toList)
      return .code n

/-- Runs `left || right`. -/
def ifFails (left right : Act Status) : Act Status := do
  match ← left with
  | .terminate => return .terminate
  | .code n =>
    if n ≠ 0 then right
    else
      debug Operator.conditionalOr.logger "Left side succeeded, skipping right side".toList
      return .success

/-! ### Concurrent operators -/

/-- The work of a child that runs a side: its status becomes its exit code. -/
def sideWork (side : Act Status) : Act ChildEnd := do
  return .exit (← side).exitCode

/-- One side of a pipe: an end of the channel becomes a standard stream, and both ends are
closed, before the side runs. -/
def pipeSide (side : Act Status) (fd standard readFd writeFd : Nat) : Act ChildEnd := do
  bindStream fd standard [readFd, writeFd]
  sideWork side

/-- Makes one child after the other. Where one cannot be made the others are not tried: gives
the children made, and the failure. -/
def spawnAll : List (Act ChildEnd) → Act (List Nat × Option Failure)
  | [] => return ([], none)
  | work :: rest => do
    match ← attempt (spawn work) with
    | .error failure => return ([], some failure)
    | .ok pid =>
      let (pids, failure) ← spawnAll rest
      return (pid :: pids, failure)

/-- Logs and reports that a child could not be made. Failures of another kind are passed on. -/
def reportFork (logger what : Text) : Failure → Act Unit
  | .system e path => do
    error logger ("Cannot fork ".toList ++ what ++ ": ".toList
      ++ (Failure.system e path).message) none
    report ("fork: ".toList ++ e.reason)
  | failure => throw failure

/-- Waits for the sides of a pipe that were made, left side first. The status is the right
side's. -/
def awaitStages : List Nat → Act Status
  | [] => return .failure
  | leftPid :: others => do
    let leftStatus ← await leftPid
    debug Operator.pipe.logger
      ("Pipe left side finished with ".toList ++ leftStatus.shown ++ " (ignored)".toList)
    match others with
    | [] => return .failure
    | rightPid :: _ => await rightPid

/-- Runs `left | right`: both sides as children, joined by a channel. The running process closes
the channel's ends as soon as both are made, or one could not be made; then it waits. -/
def piped (left right : Act Status) : Act Status := do
  match ← attempt createChannel with
  | .error (.system e path) =>
    error Operator.pipe.logger ("Cannot create pipe: ".toList
      ++ (Failure.system e path).message) none
    report ("pipe: ".toList ++ e.reason)
    return .failure
  | .error failure => throw failure
  | .ok (readFd, writeFd) =>
    let (pids, failure) ← spawnAll
      [pipeSide left writeFd 1 readFd writeFd, pipeSide right readFd 0 readFd writeFd]
    let told ← attempt (failure.forM (reportFork Operator.pipe.logger "pipe stage".toList))
    closeAll [readFd, writeFd]
    let () ← ofExcept told
    awaitStages pids

/-- Waits for children in their order. -/
def awaitAll : List Nat → Act (List Status)
  | [] => return []
  | pid :: pids => do
    let status ← await pid
    return status :: (← awaitAll pids)

/-- Runs `left & right`: both sides as children. Success only if both were made and both
succeeded. -/
def inParallel (left right : Act Status) : Act Status := do
  let (pids, failure) ← spawnAll [sideWork left, sideWork right]
  failure.forM (reportFork Operator.parallel.logger "parallel branch".toList)
  let statuses ← awaitAll pids
  debug Operator.parallel.logger ("Parallel branches finished with [".toList
    ++ joinWith [',', ' '] (statuses.map Status.shown) ++ "]".toList)
  if statuses.length = 2 && statuses.all (· == .success) then return .success
  else return .failure

/-! ### Trees -/

/-- Runs two sides as an operator says. -/
def combine : Operator → Act Status → Act Status → Act Status
  | .sequential => inSequence
  | .conditionalAnd => ifSucceeds
  | .conditionalOr => ifFails
  | .pipe => piped
  | .parallel => inParallel

/-- Keeps a number as the last one that a command answered with. -/
def remember (s : Status) : Act Status := do
  match s with
  | .code n => modifyProc fun p => { p with commandLast := n }
  | .terminate => pure ()
  return s

/-- Who logs what concerns trees. -/
def executor : Text := "CommandExecutor".toList

/-- Refuses a tree in which a node is reached twice. -/
def refuseShared (t : Tree) : Act Unit :=
  refuse (t.firstShared.map fun shared => .tree (.shared shared))

/-- Refuses an operator for which nothing is registered. -/
def Rules.refuseMissing (rules : Rules) (op : Operator) : Act Unit :=
  refuse (if op ∈ rules.operators then none else some (.noCombinator op))

/-- Runs the two sides of a pair that stands at a depth, and keeps the number of the pair. -/
def Rules.runPair (rules : Rules) (op : Operator) (shown : Text) (level : Int)
    (left right : Act Status) : Act Status := do
  rules.refuseMissing op
  debug executor (levelText level ++ op.name ++ ": ".toList ++ shown)
  let status ← combine op left right
  debug executor (levelText level ++ op.name ++ " -> ".toList ++ status.shown)
  remember status

/-- Runs a tree at a depth. At depth 0 a pair is first checked for nodes reached twice; beyond
that the depth shows in the log alone. -/
def execute (rules : Rules) : Tree → Int → Act Status
  | .leaf mark c, level => do
    remember (← runLeaf rules mark c level)
  | .bare mark, _ => throw (.notRunnable (.node (.bare mark)))
  | .binary mark op l r, level => do
    if level = 0 then refuseShared (.binary mark op l r)
    rules.runPair op (Tree.binary mark op l r).shown level (execute rules l (level + 1))
      (execute rules r (level + 1))

/-- Runs what is offered as a tree. -/
def executeOffered (rules : Rules) (offered : Offered) (level : Int) : Act Status :=
  match offered with
  | .node t => execute rules t level
  | o => throw (.notRunnable o)

end LineShell
